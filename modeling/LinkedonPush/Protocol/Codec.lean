import LinkedonPush.Protocol.Fmt

/-!
# Encoders and decoders

The encoders of `lpushFmt.cpp` and the decoders of integers, and which values come back. An encoder
hands out a block and a length; the bytes it stores count from the start of the block, whether they
lie inside or not.
-/

namespace LinkedonPush

open Theory

namespace LPushFMT

def lpushFmtInt : UInt8 := 0x03
def lpushFmtLong : UInt8 := 0x04

/-- What an encoder leaves behind. -/
structure Encoded where
  /-- The size of the block. -/
  allocated : Nat
  /-- The bytes stored from the start of the block on. -/
  stored : Bytes
  /-- The length output. -/
  len : Int

/-! ### Integers -/

def encodeInt (src : BitVec 32) : Encoded := ⟨5, lpushFmtInt :: intBytes src, 5⟩

/-- `(src>>shift)&0xFF` of a `long long`, stored into a byte. -/
def longByte (src : BitVec 64) (shift : Nat) : UInt8 := ⟨(src.sshiftRight shift &&& 0xFF#64).setWidth 8⟩

def encodeLong (src : BitVec 64) : Encoded where
  allocated := 9
  stored := [lpushFmtLong, longByte src 56, longByte src 48, longByte src 40, longByte src 32,
    longByte src 24, longByte src 16, longByte src 8, longByte src 0]
  len := 9

/-- The number of bytes and the output parameter, which a wrong tag leaves alone. -/
def decodeInt (memory : Nat → UInt8) (data : Nat) (ret : BitVec 32) : Access (Int × BitVec 32) := do
  let tag ← readByte memory data
  if tag &&& 0x0F = lpushFmtInt then
    let ret ← readLength memory (data + 1)
    pure (5, ret)
  else
    pure (1, ret)

/-- `(byte & 0xFF) << shift`: the byte is promoted to an `int`, and `wide` is what a shift of an
`int` by its width or more yields. -/
def shiftInt (wide : BitVec 32 → Nat → BitVec 32) (byte : UInt8) (shift : Nat) : BitVec 32 :=
  if shift < 32 then byte.toBitVec.setWidth 32 <<< shift else wide (byte.toBitVec.setWidth 32) shift

/-- The eight operands are of type `int`; the result is converted. -/
def longAt (wide : BitVec 32 → Nat → BitVec 32) (memory : Nat → UInt8) (offset : Nat) : BitVec 64 :=
  (shiftInt wide (memory offset) 56 ||| shiftInt wide (memory (offset + 1)) 48 |||
    shiftInt wide (memory (offset + 2)) 40 ||| shiftInt wide (memory (offset + 3)) 32 |||
    shiftInt wide (memory (offset + 4)) 24 ||| shiftInt wide (memory (offset + 5)) 16 |||
    shiftInt wide (memory (offset + 6)) 8 ||| (memory (offset + 7)).toBitVec.setWidth 32).signExtend 64

def decodeLong (wide : BitVec 32 → Nat → BitVec 32) (memory : Nat → UInt8) (data : Nat) (ret : BitVec 64) :
    Access (Int × BitVec 64) := do
  let tag ← readByte memory data
  if tag &&& 0x0F = lpushFmtLong then
    let ret ← ⟨List.range' (data + 1) 8, some (longAt wide memory (data + 1))⟩
    pure (9, ret)
  else
    pure (1, ret)

/-! ### Texts -/

/-- The block is for the tag and the length alone, and the parameter `len` is another variable than
the output `tlen`. -/
def encodeString (src : Bytes) (tlen : Int) : Encoded where
  allocated := 5
  stored := lpushFmtString :: intBytes (BitVec.ofNat 32 src.length) ++ src
  len := tlen

/-- The object that `encodeJson` writes. -/
def person (src : StringMap) : Json :=
  Json.withMembers (src.map fun (key, value) => (key, some (.string value))) .null

/-- The tag and the length are appended as a C string, which ends at the first NUL of the block, or
in the memory `behind` it. -/
def encodeJson (platform : Platform) (behind : Bytes) (src : StringMap) : Bytes :=
  let len := BitVec.ofNat 32 (platform.writer (person src)).length
  cStr (lpushFmtJson :: intBytes len ++ behind) ++ platform.writer (person src)

end LPushFMT

open LPushFMT

/-! ### Integers come back -/

section

variable {wide : BitVec 32 → Nat → BitVec 32} {w : BitVec 64}

/-- The lower four bytes are put together as in an `int`. -/
theorem assembleInt_longByte (w : BitVec 64) :
    assembleInt (longByte w 24) (longByte w 16) (longByte w 8) (longByte w 0) = w.setWidth 32 := by
  apply BitVec.eq_of_getLsbD_eq
  intro i hi
  simp only [assembleInt, longByte, BitVec.getLsbD_or, BitVec.getLsbD_shiftLeft, BitVec.getLsbD_setWidth,
    BitVec.getLsbD_and, BitVec.getLsbD_sshiftRight]
  interval_cases i <;> simp

/-- What the over-wide shifts of the upper four bytes add. -/
def wideBits (wide : BitVec 32 → Nat → BitVec 32) (w : BitVec 64) : BitVec 32 :=
  wide ((longByte w 56).toBitVec.setWidth 32) 56 ||| wide ((longByte w 48).toBitVec.setWidth 32) 48 |||
    wide ((longByte w 40).toBitVec.setWidth 32) 40 ||| wide ((longByte w 32).toBitVec.setWidth 32) 32

theorem result_decodeInt (v ret : BitVec 32) (rest : Bytes) (beyond : Nat → UInt8) :
    (decodeInt (bodyMemory ((encodeInt v).stored ++ rest) beyond) 0 ret).result = some (5, v) := by
  have hint : intAt ((encodeInt v).stored ++ rest) 1 = v := assembleInt_byteAt v
  have htag : bodyMemory ((encodeInt v).stored ++ rest) beyond 0 &&& 0x0F = lpushFmtInt := by
    change lpushFmtInt &&& 0x0F = lpushFmtInt
    decide
  unfold decodeInt
  rw [Access.result_bind, result_readByte, Option.bind_some, if_pos htag, Access.result_bind, result_readLength,
    Option.bind_some, Nat.zero_add, innerLength_bodyMemory (by simp [encodeInt, intBytes]), hint]
  rfl

theorem result_decodeLong (ret : BitVec 64) (rest : Bytes) (beyond : Nat → UInt8) :
    (decodeLong wide (bodyMemory ((encodeLong w).stored ++ rest) beyond) 0 ret).result =
      some (9, (wideBits wide w ||| w.setWidth 32).signExtend 64) := by
  have htag : bodyMemory ((encodeLong w).stored ++ rest) beyond 0 &&& 0x0F = lpushFmtLong := by
    change lpushFmtLong &&& 0x0F = lpushFmtLong
    decide
  have hlong : longAt wide (bodyMemory ((encodeLong w).stored ++ rest) beyond) 1 =
      (wideBits wide w ||| w.setWidth 32).signExtend 64 := by
    rw [← assembleInt_longByte w]
    simp only [assembleInt, wideBits, ← BitVec.or_assoc]
    rfl
  unfold decodeLong
  rw [Access.result_bind, result_readByte, Option.bind_some, if_pos htag, Access.result_bind, Nat.zero_add, hlong]
  rfl

/-- The value is that of an `int`, and the over-wide shifts add no bit to it. -/
structure Narrow (wide : BitVec 32 → Nat → BitVec 32) (w : BitVec 64) : Prop where
  fits : (w.setWidth 32).signExtend 64 = w
  adds : wideBits wide w ||| w.setWidth 32 = w.setWidth 32

theorem setWidth_signExtend (x : BitVec 32) : (x.signExtend 64).setWidth 32 = x := by
  apply BitVec.eq_of_getLsbD_eq
  intro i hi
  have hwide : i < 64 := by omega
  simp only [BitVec.getLsbD_setWidth, BitVec.getLsbD_signExtend, hi, hwide, decide_true, Bool.true_and, if_true]

theorem signExtend_or_eq_iff : (wideBits wide w ||| w.setWidth 32).signExtend 64 = w ↔ Narrow wide w := by
  constructor
  · intro h
    have hlow : wideBits wide w ||| w.setWidth 32 = w.setWidth 32 := by
      conv_rhs => rw [← h]
      rw [setWidth_signExtend]
    refine ⟨?_, hlow⟩
    rw [hlow] at h
    exact h
  · rintro ⟨hfits, hadds⟩
    rw [hadds, hfits]

end

/-- **Integers.** Every `int` comes back. A `long long` comes back exactly if it is an `int` and the
over-wide shifts add nothing to it. -/
theorem fixed_width_round_trip (rest : Bytes) (beyond : Nat → UInt8) :
    (∀ v ret : BitVec 32, (encodeInt v).len = 5 ∧
      (decodeInt (bodyMemory ((encodeInt v).stored ++ rest) beyond) 0 ret).result =
        some ((encodeInt v).len, v)) ∧
    ∀ (wide : BitVec 32 → Nat → BitVec 32) (w ret : BitVec 64), (encodeLong w).len = 9 ∧
      ((decodeLong wide (bodyMemory ((encodeLong w).stored ++ rest) beyond) 0 ret).result =
        some ((encodeLong w).len, w) ↔ Narrow wide w) := by
  refine ⟨fun v ret => ⟨rfl, result_decodeInt v ret rest beyond⟩, fun wide w ret => ⟨rfl, ?_⟩⟩
  rw [result_decodeLong, ← signExtend_or_eq_iff]
  simp only [encodeLong, Option.some.injEq, Prod.mk.injEq, true_and]

/-- The value `2^32` never comes back, whatever the over-wide shifts yield. -/
theorem not_fixed_width_round_trip :
    ¬ ∃ (wide : BitVec 32 → Nat → BitVec 32) (ret : BitVec 64),
      (decodeLong wide (bodyMemory (encodeLong 0x100000000#64).stored fun _ => 0) 0 ret).result =
        some ((encodeLong 0x100000000#64).len, 0x100000000#64) := by
  rintro ⟨wide, ret, hround⟩
  have hresult := @result_decodeLong wide 0x100000000#64 ret [] fun _ => 0
  rw [List.append_nil, hround] at hresult
  simp only [Option.some.injEq, Prod.mk.injEq] at hresult
  have hnarrow := signExtend_or_eq_iff.mp hresult.2.symm
  exact absurd hnarrow.fits (by decide)

/-! ### Texts come back -/

section

variable {platform : Platform} {src : StringMap} {behind : Bytes} {beyond : Nat → UInt8}

/-- The bytes lie in the block, the length output counts them, and they are decoded again. -/
structure StringRoundTrip (platform : Platform) (beyond : Nat → UInt8) (src : Bytes) (tlen : Int) : Prop where
  stored : (encodeString src tlen).stored.length = 5 + src.length
  inside : (encodeString src tlen).stored.length ≤ (encodeString src tlen).allocated
  len : (encodeString src tlen).len = ((5 + src.length : Nat) : Int)
  decoded : (decodeString platform (bodyMemory (encodeString src tlen).stored beyond) 0).result =
    some (((5 + src.length : Nat) : Int), src)

theorem stringRoundTrip_iff (hmalloc : platform.malloc 0 = true) {src : Bytes} {tlen : Int} :
    StringRoundTrip platform beyond src tlen ↔ src = [] ∧ tlen = 5 := by
  constructor
  · rintro ⟨hstored, hinside, hlen, -⟩
    have hnil : src = [] := by
      rw [hstored] at hinside
      simp only [encodeString] at hinside
      exact List.length_eq_zero_iff.mp (by omega)
    rw [hnil] at hlen
    exact ⟨hnil, hlen⟩
  · rintro ⟨rfl, rfl⟩
    refine ⟨rfl, Nat.le_refl 5, rfl, ?_⟩
    exact @result_decodeString_text platform (encodeString [] 5).stored beyond 0 (by decide) (Nat.le_refl 5) hmalloc

/-- The bytes are decoded into the same map, and counted. -/
def JsonRoundTrip (platform : Platform) (behind : Bytes) (beyond : Nat → UInt8) (src : StringMap) : Prop :=
  ∃ parms, (decodeJson platform (bodyMemory (encodeJson platform behind src) beyond) 0).result =
      some (((encodeJson platform behind src).length : Int), parms) ∧
    ∀ key, parms.lookup key = src.lookup key

/-- What jsoncpp does with the object: its text starts with a brace, and can be parsed. -/
structure Styled (platform : Platform) (src : StringMap) : Prop where
  opens : ∃ rest, platform.writer (person src) = 123 :: rest
  readBack : ∃ root, platform.reader (platform.writer (person src)) = some root ∧ Json.ReadBack root (person src)

/-- The length of the text contains no NUL, the memory behind the block starts with one, and the
bytes can be counted by an `int`. -/
structure Whole (behind text : Bytes) : Prop where
  length : text.length < 2 ^ 31 - 5
  noNul : (0 : UInt8) ∉ intBytes (BitVec.ofNat 32 text.length)
  ends : cStr behind = []

theorem lookup_person (key : Bytes) :
    ((src.map fun (key, value) => (key, some (Json.string value))).lookup key).join.bind Json.asString =
      src.lookup key := by
  induction src with
  | nil => rfl
  | cons entry src ih =>
      obtain ⟨first, value⟩ := entry
      rw [List.map_cons, Json.lookup_cons_ite, Json.lookup_cons_ite]
      split
      · rfl
      · exact ih

theorem stringMembers_person {root : Json} (hdistinct : (src.map Prod.fst).Nodup)
    (hroot : Json.ReadBack root (person src)) :
    ∃ parms, stringMembers root = some parms ∧ ∀ key, parms.lookup key = src.lookup key := by
  have hkeys : ((src.map fun (key, value) => (key, some (Json.string value))).map Prod.fst).Nodup := by
    rw [List.map_map]
    exact hdistinct
  obtain ⟨parms, hparms, hlookup⟩ := stringMembers_of_withMembers hkeys (by
    intro entry hentry value hvalue
    obtain ⟨⟨key, shown⟩, -, rfl⟩ := List.mem_map.mp hentry
    obtain rfl := Option.some.inj hvalue
    rfl) hroot
  exact ⟨parms, hparms, fun key => (hlookup key).trans (lookup_person key)⟩

/-- A prefix without a NUL is appended as a whole. -/
theorem encodeJson_of_whole (h : Whole behind (platform.writer (person src))) :
    encodeJson platform behind src = jsonBody (platform.writer (person src)) := by
  have hprefixed :
      (0 : UInt8) ∉ lpushFmtJson :: intBytes (BitVec.ofNat 32 (platform.writer (person src)).length) := by
    rw [List.mem_cons, not_or]
    exact ⟨by decide, h.noNul⟩
  rw [encodeJson, cStr_append_of_notMem hprefixed, h.ends, List.append_nil]
  rfl

theorem jsonRoundTrip_of_whole (hmalloc : ∀ n < 2 ^ 31, platform.malloc n = true)
    (hdistinct : (src.map Prod.fst).Nodup) (hstyled : Styled platform src)
    (h : Whole behind (platform.writer (person src))) : JsonRoundTrip platform behind beyond src := by
  have hlength := h.length
  obtain ⟨root, hreader, hback⟩ := hstyled.readBack
  obtain ⟨parms, hparms, hlookup⟩ := stringMembers_person hdistinct hback
  refine ⟨parms, ?_, hlookup⟩
  have hdecoded := @result_decodeJson_jsonBody _ beyond platform _ _ hlength (hmalloc _ (by omega)) hreader hparms []
  rw [List.append_nil] at hdecoded
  rw [encodeJson_of_whole h, hdecoded, toInt_ofNat (by omega)]
  rfl

/-- Members come with the length that the prefix says. -/
theorem decodeJson_length {memory : Nat → UInt8} {data : Nat} {len : Int} {parms : StringMap}
    (h : (decodeJson platform memory data).result = some (len, parms)) (hparms : parms ≠ []) :
    len = (5 + innerLength memory (data + 1)).toInt := by
  unfold decodeJson at h
  rw [Access.result_bind, result_readByte, Option.bind_some] at h
  split at h
  · rw [Access.result_bind, result_readLength, Option.bind_some, Access.result_bind] at h
    obtain ⟨jsonData, -, h⟩ := Option.bind_eq_some_iff.mp h
    split at h
    · obtain ⟨-, hnil⟩ := Prod.mk.inj (Option.some.inj h)
      exact (hparms hnil.symm).elim
    · split at h
      · cases h
      · exact (Prod.mk.inj (Option.some.inj h)).1.symm
  · obtain ⟨-, hnil⟩ := Prod.mk.inj (Option.some.inj h)
    exact (hparms hnil.symm).elim

theorem toNat_of_toInt {v : BitVec 32} {n : Nat} (h : v.toInt = n) : v.toNat = n ∧ n < 2 ^ 31 := by
  have hbound := v.isLt
  rw [BitVec.toInt_eq_toNat_cond] at h
  split at h <;> omega

theorem toNat_innerLength {memory : Nat → UInt8} {offset : Nat} : (innerLength memory offset).toNat =
    (memory offset).toNat * 2 ^ 24 + (memory (offset + 1)).toNat * 2 ^ 16 +
      (memory (offset + 2)).toNat * 2 ^ 8 + (memory (offset + 3)).toNat := toNat_assembleInt _ _ _ _

/-- A prefix with a NUL is cut short there. -/
theorem cStr_of_nul {tag : UInt8} {bytes pre post : Bytes} (htag : tag ≠ 0) (hbytes : bytes = pre ++ 0 :: post)
    (hpre : (0 : UInt8) ∉ pre) : cStr (tag :: bytes ++ behind) = tag :: pre := by
  have hnoNul : (0 : UInt8) ∉ tag :: pre := by
    rw [List.mem_cons, not_or]
    exact ⟨Ne.symm htag, hpre⟩
  have hnul : (0 : UInt8) ∈ tag :: pre ++ [0] := List.mem_append_right _ List.mem_cons_self
  calc
    _ = cStr ((tag :: pre ++ [0]) ++ (post ++ behind)) := by
      rw [hbytes]
      simp
    _ = cStr (tag :: pre ++ [0]) := cStr_append_of_mem hnul _
    _ = cStr (tag :: pre) := cStr_append_nul _
    _ = tag :: pre := cStr_eq_self hnoNul

/-- With a brace in place of the first NUL, the prefix spells a larger number. -/
theorem lt_innerLength_of_brace {b0 b1 b2 b3 tag : UInt8} {pre post rest : Bytes}
    (hbytes : [b0, b1, b2, b3] = pre ++ 0 :: post) :
    b0.toNat * 2 ^ 24 + b1.toNat * 2 ^ 16 + b2.toNat * 2 ^ 8 + b3.toNat <
        (innerLength (bodyMemory (tag :: (pre ++ 123 :: rest)) beyond) 1).toNat ∧
      (innerLength (bodyMemory (tag :: (pre ++ 123 :: rest)) beyond) 1).toNat < (b0.toNat + 124) * 2 ^ 24 := by
  have hzero : (0 : UInt8).toNat = 0 := rfl
  have hbrace : (123 : UInt8).toNat = 123 := rfl
  have h1 := b1.toNat_lt
  have h2 := b2.toNat_lt
  have h3 := b3.toNat_lt
  have m1 := (bodyMemory (tag :: (pre ++ 123 :: rest)) beyond (1 + 1)).toNat_lt
  have m2 := (bodyMemory (tag :: (pre ++ 123 :: rest)) beyond (1 + 2)).toNat_lt
  have m3 := (bodyMemory (tag :: (pre ++ 123 :: rest)) beyond (1 + 3)).toNat_lt
  rw [toNat_innerLength]
  rcases pre with _ | ⟨p0, _ | ⟨p1, _ | ⟨p2, _ | ⟨p3, pre⟩⟩⟩⟩
  · obtain ⟨rfl, rfl⟩ := List.cons.inj hbytes
    have hread₁ : bodyMemory (tag :: ([] ++ 123 :: rest)) beyond 1 = 123 := rfl
    rw [hread₁, hbrace, hzero]
    omega
  · simp only [List.cons_append, List.nil_append, List.cons.injEq] at hbytes
    obtain ⟨rfl, rfl, -⟩ := hbytes
    have hread₁ : bodyMemory (tag :: ([b0] ++ 123 :: rest)) beyond 1 = b0 := rfl
    have hread₂ : bodyMemory (tag :: ([b0] ++ 123 :: rest)) beyond (1 + 1) = 123 := rfl
    rw [hread₁, hread₂, hbrace, hzero]
    omega
  · simp only [List.cons_append, List.nil_append, List.cons.injEq] at hbytes
    obtain ⟨rfl, rfl, rfl, -⟩ := hbytes
    have hread₁ : bodyMemory (tag :: ([b0, b1] ++ 123 :: rest)) beyond 1 = b0 := rfl
    have hread₂ : bodyMemory (tag :: ([b0, b1] ++ 123 :: rest)) beyond (1 + 1) = b1 := rfl
    have hread₃ : bodyMemory (tag :: ([b0, b1] ++ 123 :: rest)) beyond (1 + 2) = 123 := rfl
    rw [hread₁, hread₂, hread₃, hbrace, hzero]
    omega
  · simp only [List.cons_append, List.nil_append, List.cons.injEq] at hbytes
    obtain ⟨rfl, rfl, rfl, rfl, -⟩ := hbytes
    have hread₁ : bodyMemory (tag :: ([b0, b1, b2] ++ 123 :: rest)) beyond 1 = b0 := rfl
    have hread₂ : bodyMemory (tag :: ([b0, b1, b2] ++ 123 :: rest)) beyond (1 + 1) = b1 := rfl
    have hread₃ : bodyMemory (tag :: ([b0, b1, b2] ++ 123 :: rest)) beyond (1 + 2) = b2 := rfl
    have hread₄ : bodyMemory (tag :: ([b0, b1, b2] ++ 123 :: rest)) beyond (1 + 3) = 123 := rfl
    rw [hread₁, hread₂, hread₃, hread₄, hbrace, hzero]
    omega
  · have hlengths := congrArg List.length hbytes
    simp only [List.length_cons, List.length_append, List.length_nil] at hlengths
    omega

/-- The length that is read counts the whole body only if the prefix is there as it was written, and
nothing behind it. -/
theorem whole_of_counted {rest text : Bytes} (hopens : text = 123 :: rest)
    (hcounted : (5 + innerLength (bodyMemory
        (cStr (lpushFmtJson :: intBytes (BitVec.ofNat 32 text.length) ++ behind) ++ text) beyond) 1).toInt =
      ((cStr (lpushFmtJson :: intBytes (BitVec.ofNat 32 text.length) ++ behind) ++ text).length : Int)) :
    Whole behind text := by
  have hspelled := toNat_assembleInt (byteAt (BitVec.ofNat 32 text.length) 24)
    (byteAt (BitVec.ofNat 32 text.length) 16) (byteAt (BitVec.ofNat 32 text.length) 8)
    (byteAt (BitVec.ofNat 32 text.length) 0)
  rw [assembleInt_byteAt, BitVec.toNat_ofNat] at hspelled
  have hbytes : intBytes (BitVec.ofNat 32 text.length) = [byteAt (BitVec.ofNat 32 text.length) 24,
    byteAt (BitVec.ofNat 32 text.length) 16, byteAt (BitVec.ofNat 32 text.length) 8,
    byteAt (BitVec.ofNat 32 text.length) 0] := rfl
  rw [hbytes] at hcounted
  generalize byteAt (BitVec.ofNat 32 text.length) 24 = b0 at *
  generalize byteAt (BitVec.ofNat 32 text.length) 16 = b1 at *
  generalize byteAt (BitVec.ofNat 32 text.length) 8 = b2 at *
  generalize byteAt (BitVec.ofNat 32 text.length) 0 = b3 at *
  obtain ⟨hsum, hsmall⟩ := toNat_of_toInt hcounted
  rw [BitVec.toNat_add, show (5 : BitVec 32).toNat = 5 from rfl] at hsum
  by_cases hnul : (0 : UInt8) ∈ [b0, b1, b2, b3]
  · -- the text begins in the middle of the length, which is then too large
    obtain ⟨pre, post, hpost, hpre⟩ := List.eq_append_cons_of_mem hnul
    rw [cStr_of_nul (by decide) hpost hpre, hopens, List.cons_append] at hsum hsmall
    have hread := @lt_innerLength_of_brace beyond b0 b1 b2 b3 lpushFmtJson pre post rest hpost
    have hlengths := congrArg List.length hpost
    rw [hopens] at hspelled
    simp only [List.length_cons, List.length_append, List.length_nil] at hlengths hsum hsmall hspelled
    omega
  · have hprefixed : (0 : UInt8) ∉ lpushFmtJson :: [b0, b1, b2, b3] := by
      rw [List.mem_cons, not_or]
      exact ⟨by decide, hnul⟩
    rw [cStr_append_of_notMem hprefixed] at hsum hsmall
    have hread : innerLength (bodyMemory (lpushFmtJson :: [b0, b1, b2, b3] ++ cStr behind ++ text) beyond) 1 =
        assembleInt b0 b1 b2 b3 := rfl
    rw [hread, toNat_assembleInt] at hsum
    simp only [List.length_cons, List.length_append, List.length_nil] at hsum hsmall
    refine ⟨by omega, ?_, ?_⟩
    · rw [hbytes]
      exact hnul
    · apply List.length_eq_zero_iff.mp
      omega

end

/-- **Texts.** The empty string comes back where the caller has set the length, and a map whose text
is so long that no byte of its length is zero. -/
theorem length_prefixed_round_trip (platform : Platform) (hmalloc : ∀ n < 2 ^ 31, platform.malloc n = true)
    (behind : Bytes) (beyond : Nat → UInt8) :
    (∀ (src : Bytes) (tlen : Int), (0 : UInt8) ∉ src →
      (StringRoundTrip platform beyond src tlen ↔ src = [] ∧ tlen = 5)) ∧
    ∀ src : StringMap, src ≠ [] → (src.map Prod.fst).Nodup → Styled platform src →
      (JsonRoundTrip platform behind beyond src ↔ Whole behind (platform.writer (person src))) := by
  refine ⟨fun src tlen _ => stringRoundTrip_iff (hmalloc 0 (by decide)), ?_⟩
  intro src hne hdistinct hstyled
  constructor
  · rintro ⟨parms, hdecoded, hlookup⟩
    have hparms : parms ≠ [] := by
      rintro rfl
      obtain ⟨⟨key, value⟩, rest, rfl⟩ := List.exists_cons_of_ne_nil hne
      have hkey := hlookup key
      rw [Json.lookup_cons_ite, if_pos rfl] at hkey
      cases hkey
    obtain ⟨rest, hopens⟩ := hstyled.opens
    exact whole_of_counted hopens (decodeJson_length hdecoded hparms).symm
  · exact jsonRoundTrip_of_whole hmalloc hdistinct hstyled

/-- A map with one member, and its text. -/
def pairMap : StringMap := [(text "a", text "b")]

def pairText : Bytes := text "\x7b\n   \"a\" : \"b\"\n\x7d\n"

/-- The length of the text has three leading zero bytes, so that the prefix ends behind the tag. -/
theorem length_prefixed_round_trip_pair :
    ¬ JsonRoundTrip (textPlatform pairText (person pairMap)) [] (fun _ => 0) pairMap := by
  have hstyled : Styled (textPlatform pairText (person pairMap)) pairMap :=
    ⟨⟨_, rfl⟩, person pairMap, by simp [textPlatform], Json.readBack_self rfl (by decide)⟩
  have hmalloc : ∀ n < 2 ^ 31, (textPlatform pairText (person pairMap)).malloc n = true := by
    intro n hn
    have hsmall : n < 2 ^ 47 := by omega
    exact decide_eq_true hsmall
  rw [(length_prefixed_round_trip _ hmalloc [] fun _ => 0).2 pairMap (by decide) (by decide) hstyled]
  intro hwhole
  exact absurd hwhole.noNul (by decide)

/-- A string of one byte does not fit the block, and its length is not reported. -/
theorem not_length_prefixed_round_trip :
    ¬ ∀ (src : Bytes) (tlen : Int), (0 : UInt8) ∉ src → StringRoundTrip barePlatform (fun _ => 0) src tlen := by
  intro hall
  have hinside := (hall (text "a") 6 (by decide)).inside
  exact absurd hinside (by decide)

end LinkedonPush
