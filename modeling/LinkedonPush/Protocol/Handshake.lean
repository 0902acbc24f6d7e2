import LinkedonPush.Protocol.Fmt
import LinkedonPush.Protocol.ProtocolStack

/-!
# The opening messages

`LPushHandshakeMessage` and the halves of `LPushProtocol` that judge the first two frames of a
connection.
-/

namespace LinkedonPush

open Theory

def decimalDigits : Bytes := text "0123456789"

/-- The digits counted one by one have to make up the whole string. -/
def isIntergeStr (src : Bytes) : Bool := src.countP (decimalDigits.contains ·) == src.length

theorem isIntergeStr_iff {src : Bytes} : isIntergeStr src = true ↔ ∀ c ∈ src, c ∈ decimalDigits := by
  rw [isIntergeStr, beq_iff_eq, List.countP_eq_length]
  simp only [List.contains_iff_mem]

theorem zero_notMem_of_isIntergeStr {src : Bytes} (h : isIntergeStr src = true) : (0 : UInt8) ∉ src := by
  intro hzero
  have hdigit := isIntergeStr_iff.mp h 0 hzero
  revert hdigit
  decide

def hexDigit (nibble : UInt8) : UInt8 := (text "0123456789abcdef").getD nibble.toNat 0

/-- The digest of the text before the first NUL, in hexadecimal. -/
def md5Encoder (platform : Platform) (src : Bytes) : Bytes :=
  (platform.md5 (cStr src)).toList.flatMap fun (byte : UInt8) => [hexDigit (byte >>> 4), hexDigit (byte &&& 0x0F)]

theorem length_md5Encoder (platform : Platform) (src : Bytes) : (md5Encoder platform src).length = 32 := by
  have hdigest : (platform.md5 (cStr src)).toList.length = 16 := List.Vector.toList_length _
  simp only [md5Encoder, List.length_flatMap, List.length_cons, List.length_nil, List.map_const',
    List.sum_replicate, hdigest]
  rfl

theorem hexDigit_ne_zero {nibble : UInt8} (h : nibble.toNat < 16) : hexDigit nibble ≠ 0 := by
  have hall : ∀ n < 16, (text "0123456789abcdef").getD n 0 ≠ 0 := by decide
  exact hall nibble.toNat h

theorem zero_notMem_md5Encoder (platform : Platform) (src : Bytes) : (0 : UInt8) ∉ md5Encoder platform src := by
  intro hmem
  obtain ⟨byte, -, hdigit⟩ := List.mem_flatMap.mp hmem
  have hhigh : (byte >>> 4).toNat < 16 := by
    have hbyte := byte.toNat_lt
    simp only [UInt8.toNat_shiftRight, Nat.shiftRight_eq_div_pow]
    simp
    omega
  have hlow : (byte &&& 0x0F).toNat < 16 := by
    rw [UInt8.toNat_and]
    exact Nat.lt_of_le_of_lt Nat.and_le_right (by decide)
  rcases List.mem_pair.mp hdigit with hzero | hzero
  · exact hexDigit_ne_zero hhigh hzero.symm
  · exact hexDigit_ne_zero hlow hzero.symm

structure LPushHandshakeMessage where
  appId : Bytes
  screteKey : Bytes
  md5Data : Bytes
  userId : Bytes
  clientFlag : Bytes
  identity : Bytes
  devices : Bytes
deriving DecidableEq

namespace LPushHandshakeMessage

def empty : LPushHandshakeMessage := ⟨[], [], [], [], [], [], []⟩

def setParams (parms : StringMap) : LPushHandshakeMessage where
  appId := parms.get (text "appId")
  screteKey := parms.get (text "screteKey")
  md5Data := parms.get (text "md5Data")
  userId := parms.get (text "userId")
  clientFlag := parms.get (text "clientFlag")
  identity := parms.get (text "identity")
  devices := parms.get (text "devices")

def tomap (message : LPushHandshakeMessage) : StringMap :=
  [(text "appId", message.appId), (text "screteKey", message.screteKey), (text "userId", message.userId),
    (text "clientFlag", message.clientFlag), (text "md5Data", message.md5Data),
    (text "identity", message.identity), (text "devices", message.devices)]

/-- `do_cycle` keeps the copy that the constructor makes from `tomap`. -/
theorem setParams_tomap (message : LPushHandshakeMessage) : setParams message.tomap = message := rfl

def check (platform : Platform) (message : LPushHandshakeMessage) : Bool :=
  let md5Temple := md5Encoder platform (message.userId ++ message.appId ++ message.screteKey)
  if !isIntergeStr message.userId then false
  else if message.md5Data.length ≠ md5Temple.length then false
  else occursIn md5Temple message.md5Data

/-- What `check` compares: the search finds nothing but the digest itself. -/
theorem check_iff_md5Encoder {platform : Platform} {message : LPushHandshakeMessage} :
    message.check platform = true ↔ isIntergeStr message.userId = true ∧
      message.md5Data = md5Encoder platform (message.userId ++ message.appId ++ message.screteKey) := by
  unfold check
  dsimp only
  cases hinteger : isIntergeStr message.userId with
  | false => simp
  | true =>
      have hhex := zero_notMem_md5Encoder platform (message.userId ++ message.appId ++ message.screteKey)
      simp only [Bool.not_true, Bool.false_eq_true, if_false, true_and]
      split
      · rename_i hlength
        simp only [Bool.false_eq_true, false_iff]
        intro heq
        exact hlength (congrArg List.length heq)
      · rename_i hlength
        rw [not_not] at hlength
        constructor
        · intro hoccurs
          exact (eq_of_occursIn hhex hlength.le hoccurs).symm
        · intro heq
          rw [heq, occursIn, decide_eq_true_iff, cStr_eq_self hhex]

theorem length_md5Data_of_check {platform : Platform} {message : LPushHandshakeMessage}
    (h : message.check platform = true) : message.md5Data.length = 32 := by
  rw [(check_iff_md5Encoder.mp h).2, length_md5Encoder]

theorem isIntergeStr_of_check {platform : Platform} {message : LPushHandshakeMessage}
    (h : message.check platform = true) : isIntergeStr message.userId = true :=
  (check_iff_md5Encoder.mp h).1

end LPushHandshakeMessage

namespace LPushProtocol

def lpushHeaderTypeHandshake : UInt8 := 0x01
def lpushHeaderTypeCreateConnection : UInt8 := 0x04

/-- The returned code and the message that `setParams` filled in; dies where a member raises. -/
def handshake (platform : Platform) (beyond : Nat → UInt8) (message : LPushChunk) :
    Access (Int × LPushHandshakeMessage) := do
  let data := bodyMemory message.data beyond
  if message.header.dataType &&& 0x0F ≠ lpushHeaderTypeHandshake then
    pure (errorSystemHandshake, .empty)
  else
    let type ← LPushFMT.isType data 0
    if type ≠ LPushFMT.lpushFmtJson then
      pure (errorSystemHandshake, .empty)
    else
      let (len, parms) ← LPushFMT.decodeJson platform data 0
      if len ≠ message.header.datalenght.toInt then
        pure (errorSystemHandshake, .empty)
      else
        let msk := LPushHandshakeMessage.setParams parms
        if msk.check platform = false then
          pure (errorSystemHandshake, msk)
        else
          pure (errorSuccess, msk)

/-- The copy of the body that ends up in the unused `LPushCreateMessage` is left out. -/
def createConnection (message : LPushChunk) : Int :=
  if message.header.dataType &&& 0x0F ≠ lpushHeaderTypeCreateConnection then errorSystemHandshake
  else errorSuccess

/-- `handshake` accepts what the parser made of a text and what passes its check. -/
theorem handshake_spec {platform : Platform} {beyond : Nat → UInt8} {message : LPushChunk}
    {lpsm : LPushHandshakeMessage} (h : (handshake platform beyond message).result = some (errorSuccess, lpsm)) :
    lpsm.check platform = true ∧ ∃ source root parms, platform.reader source = some root ∧
      LPushFMT.stringMembers root = some parms ∧ lpsm = .setParams parms := by
  have hfailed : errorSystemHandshake ≠ errorSuccess := by decide
  have hrefused : ∀ msk : LPushHandshakeMessage, (pure (errorSystemHandshake, msk) : Access _).result =
      some (errorSuccess, lpsm) → False :=
    fun msk h => hfailed (Prod.mk.inj (Option.some.inj h)).1
  unfold handshake at h
  dsimp only at h
  split at h
  · exact (hrefused _ h).elim
  · rw [Access.result_bind] at h
    obtain ⟨type, -, h⟩ := Option.bind_eq_some_iff.mp h
    split at h
    · exact (hrefused _ h).elim
    · rw [Access.result_bind] at h
      obtain ⟨⟨len, parms⟩, hdecoded, h⟩ := Option.bind_eq_some_iff.mp h
      split at h
      · exact (hrefused _ h).elim
      · split at h
        · exact (hrefused _ h).elim
        · rename_i hcheck
          obtain rfl := (Prod.mk.inj (Option.some.inj h)).2
          have hpassed := Bool.eq_true_of_not_eq_false hcheck
          refine ⟨hpassed, ?_⟩
          rcases LPushFMT.decodeJson_spec hdecoded with hnone | ⟨source, root, hreader, hmembers⟩
          · -- the digest of a message without members is missing
            have hlength := LPushHandshakeMessage.length_md5Data_of_check hpassed
            rw [hnone] at hlength
            cases hlength
          · exact ⟨source, root, parms, hreader, hmembers, rfl⟩

/-- `handshake` stays inside a body of at least one byte exactly if the JSON text, where it gets to
it, lies inside. -/
theorem within_handshake {platform : Platform} {beyond : Nat → UInt8} {message : LPushChunk}
    (hpos : 0 < message.header.length) :
    (handshake platform beyond message).Within message.header.length ↔
      (message.header.dataType &&& 0x0F = lpushHeaderTypeHandshake →
        bodyMemory message.data beyond 0 &&& 0x0F = LPushFMT.lpushFmtJson →
          LPushFMT.TextFits platform (bodyMemory message.data beyond) message.header.length 0) := by
  unfold handshake LPushFMT.isType
  dsimp only
  split
  · rename_i htype
    simp only [Access.within_pure, htype, false_implies]
  · rename_i htype
    rw [not_not] at htype
    rw [Access.within_bind, Access.within_bind, LPushFMT.within_readByte]
    simp only [Access.result_bind, LPushFMT.result_readByte, Access.within_pure, Option.bind_some,
      Access.result_pure, Option.some.injEq, implies_true, and_true, hpos, true_and, forall_eq', htype,
      forall_const]
    split
    · rename_i hjson
      simp only [Access.within_pure, hjson, false_implies]
    · rename_i hjson
      rw [not_not] at hjson
      rw [Access.within_bind, LPushFMT.within_decodeJson]
      simp only [hpos, true_and, hjson, forall_const, and_iff_left_iff_imp]
      intro _ decoded _
      split
      · exact Access.within_pure _ _
      · split
        · exact Access.within_pure _ _
        · exact Access.within_pure _ _

end LPushProtocol

end LinkedonPush
