import LinkedonPush.App.Bodies
import LinkedonPush.App.Login

/-!
# The accepted handshakes

`handshake` reports success for the frames that carry a complete and signed JSON text, and fills the
message from its members. The code 201 that `decodeJson` returns where a text does not parse passes
for a length, but no digest then comes with it.
-/

namespace LinkedonPush

open Theory LPushProtocol LPushFMT

/-- What `setParams` makes of the members of a text. -/
def LPushHandshakeMessage.ofRoot (root : Json) : LPushHandshakeMessage where
  appId := root.textOf (text "appId")
  screteKey := root.textOf (text "screteKey")
  md5Data := root.textOf (text "md5Data")
  userId := root.textOf (text "userId")
  clientFlag := root.textOf (text "clientFlag")
  identity := root.textOf (text "identity")
  devices := root.textOf (text "devices")

/-- A frame that asks for a handshake with the text of `root`, and is entitled to it. -/
structure Accepted (platform : Platform) (message : LPushChunk) (root : Json) : Prop where
  dataType : message.header.dataType &&& 0x0F = 1
  tag : message.data.getD 0 0 &&& 0x0F = 6
  length : 5 + (intAt message.data 1).toInt = message.header.datalenght.toInt
  parsed : platform.reader (textAt message.data 0) = some root
  userId : ∀ c ∈ root.textOf (text "userId"), c ∈ decimalDigits
  md5Data : root.textOf (text "md5Data") = md5Encoder platform
    (root.textOf (text "userId") ++ root.textOf (text "appId") ++ root.textOf (text "screteKey"))

section

variable {platform : Platform} {beyond : Nat → UInt8} {message : LPushChunk} {root : Json}
  {lpsm : LPushHandshakeMessage}

theorem setParams_of_stringMembers {parms : StringMap} (h : stringMembers root = some parms) :
    LPushHandshakeMessage.setParams parms = .ofRoot root := by
  simp only [LPushHandshakeMessage.setParams, LPushHandshakeMessage.ofRoot, get_of_stringMembers h]

/-- The digest of a message without members is missing. -/
theorem check_setParams_nil : (LPushHandshakeMessage.setParams []).check platform = false := by
  rw [Bool.eq_false_iff]
  intro hcheck
  have hlength := LPushHandshakeMessage.length_md5Data_of_check hcheck
  cases hlength

/-- What `handshake` makes of the decoded members. -/
def judge (platform : Platform) (datalenght : Int) (decoded : Int × StringMap) : Int × LPushHandshakeMessage :=
  if decoded.1 ≠ datalenght then (errorSystemHandshake, .empty)
  else if (LPushHandshakeMessage.setParams decoded.2).check platform = false then
    (errorSystemHandshake, .setParams decoded.2)
  else (errorSuccess, .setParams decoded.2)

theorem judge_eq_success_iff {datalenght len : Int} {parms : StringMap} :
    judge platform datalenght (len, parms) = (errorSuccess, lpsm) ↔
      len = datalenght ∧ (LPushHandshakeMessage.setParams parms).check platform = true ∧
        lpsm = .setParams parms := by
  have hfailed : errorSystemHandshake ≠ errorSuccess := by decide
  unfold judge
  split
  · rename_i hlen
    simp only [Prod.mk.injEq, hfailed, hlen, false_and]
  · rename_i hlen
    rw [not_not] at hlen
    dsimp only at hlen
    split
    · rename_i hcheck
      simp only [Prod.mk.injEq, hfailed, hcheck, Bool.false_eq_true, false_and, and_false]
    · rename_i hcheck
      rw [Bool.not_eq_false] at hcheck
      simp only [Prod.mk.injEq, hcheck, hlen, true_and]
      exact eq_comm

theorem result_handshake_of_ne
    (h : message.header.dataType &&& 0x0F ≠ 1 ∨ bodyMemory message.data beyond 0 &&& 0x0F ≠ lpushFmtJson) :
    (handshake platform beyond message).result = some (errorSystemHandshake, .empty) := by
  unfold handshake
  dsimp only
  split
  · rfl
  · rename_i hdataType
    rw [Access.result_bind, isType, Access.result_bind, result_readByte, Option.bind_some,
      Access.result_pure, Option.bind_some]
    split
    · rfl
    · rename_i htag
      exact (h.elim hdataType htag).elim

/-- Behind the tests of the two types, the decoder decides. -/
theorem result_handshake (hdataType : message.header.dataType &&& 0x0F = 1)
    (htag : bodyMemory message.data beyond 0 &&& 0x0F = lpushFmtJson) :
    (handshake platform beyond message).result =
      (decodeJson platform (bodyMemory message.data beyond) 0).result.map
        (judge platform message.header.datalenght.toInt) := by
  unfold handshake
  dsimp only
  split
  · rename_i hne
    exact (hne hdataType).elim
  · rw [Access.result_bind, isType, Access.result_bind, result_readByte, Option.bind_some,
      Access.result_pure, Option.bind_some]
    split
    · rename_i hne
      exact (hne htag).elim
    · rw [Access.result_bind]
      cases (decodeJson platform (bodyMemory message.data beyond) 0).result with
      | none => rfl
      | some decoded =>
          obtain ⟨len, parms⟩ := decoded
          rw [Option.bind_some, Option.map_some]
          unfold judge
          dsimp only
          split
          · rfl
          · split <;> rfl

/-- The body of a frame is shorter than an `int` can say. -/
theorem length_data_lt (message : LPushChunk) : message.data.length < 2 ^ 31 := by
  rw [message.length_data, LPushHeader.length]
  have := BitVec.toInt_lt (x := message.header.datalenght)
  omega

/-- Where the text ends inside the body, the length behind it is counted without overflow. -/
theorem toInt_five_add {offset : Nat} (htext : HoldsText message.data offset) :
    (5 + intAt message.data (offset + 1)).toInt = 5 + (intAt message.data (offset + 1)).toInt ∧
      (intAt message.data (offset + 1)).toInt = sizeT (intAt message.data (offset + 1)) := by
  have hlength := length_data_lt message
  rw [HoldsText] at htext
  have hint := @toInt_of_sizeT (intAt message.data (offset + 1)) message.data.length (by omega) (by omega)
  refine ⟨?_, hint⟩
  have hfive : (5 : BitVec 32).toInt = 5 := by decide
  rw [BitVec.toInt_add, hfive, hint, Int.bmod_eq_of_le (by omega) (by omega)]

/-- Where the body is tagged and holds its text, the text decides. -/
theorem handshake_text_iff (hdataType : message.header.dataType &&& 0x0F = 1)
    (htag : message.data.getD 0 0 &&& 0x0F = 6) (htext : HoldsText message.data 0)
    (hmalloc : platform.malloc (sizeT (intAt message.data 1)) = true)
    (hflat : ∀ root, platform.reader (textAt message.data 0) = some root → root.Flat) :
    (handshake platform beyond message).result = some (errorSuccess, lpsm) ↔
      ∃ root, Accepted platform message root ∧ lpsm = .ofRoot root := by
  have hprefixed : 5 ≤ message.data.length := by
    rw [HoldsText] at htext
    omega
  have hmemory : bodyMemory message.data beyond 0 &&& 0x0F = lpushFmtJson := by
    rw [bodyMemory_eq_getD (by omega), htag]
    rfl
  rw [result_handshake hdataType hmemory, result_decodeJson_text htag htext hmalloc, Option.map_eq_some_iff,
    (toInt_five_add htext).1]
  cases hreader : platform.reader (textAt message.data 0) with
  | none =>
      simp only [Option.some.injEq, exists_eq_left', judge_eq_success_iff, check_setParams_nil,
        Bool.false_eq_true, false_and, and_false, false_iff, not_exists]
      rintro root ⟨haccepted, -⟩
      rw [haccepted.parsed] at hreader
      cases hreader
  | some root =>
      obtain ⟨parms, hparms⟩ := flat_iff_stringMembers.mp (hflat root hreader)
      simp only [hparms, Option.map_some, Option.some.injEq, exists_eq_left', judge_eq_success_iff,
        setParams_of_stringMembers hparms, LPushHandshakeMessage.check_iff_md5Encoder, isIntergeStr_iff]
      constructor
      · rintro ⟨hlength, ⟨huserId, hmd5Data⟩, hlpsm⟩
        exact ⟨root, ⟨hdataType, htag, hlength, hreader, huserId, hmd5Data⟩, hlpsm⟩
      · rintro ⟨root', haccepted, hlpsm⟩
        obtain rfl := Option.some.inj (haccepted.parsed.symm.trans hreader)
        exact ⟨haccepted.length, ⟨haccepted.userId, haccepted.md5Data⟩, hlpsm⟩

theorem length_pos_of_within (hdataType : message.header.dataType &&& 0x0F = 1)
    (hwithin : (handshake platform beyond message).Within message.header.length) : 0 < message.header.length := by
  unfold handshake at hwithin
  dsimp only at hwithin
  split at hwithin
  · rename_i hne
    exact (hne hdataType).elim
  · rw [Access.within_bind, isType, Access.within_bind, within_readByte] at hwithin
    exact hwithin.1.1

theorem not_success_iff (h : ∀ root, ¬ Accepted platform message root) :
    (some (errorSystemHandshake, .empty) = some (errorSuccess, lpsm)) ↔
      ∃ root, Accepted platform message root ∧ lpsm = .ofRoot root := by
  have hfailed : errorSystemHandshake ≠ errorSuccess := by decide
  simp only [Option.some.injEq, Prod.mk.injEq, hfailed, false_and, h, exists_false]

end

/-- **Acceptance.** Where the reads stay inside the body and a text that parses is an object of
scalars, `handshake` succeeds on the accepted frames alone, and takes the message from the members. -/
theorem handshake_success_iff (platform : Platform) (beyond : Nat → UInt8) (message : LPushChunk)
    (hmalloc : ∀ n ≤ message.data.length, platform.malloc n = true)
    (hwithin : (handshake platform beyond message).Within message.header.length)
    (hflat : ∀ root, platform.reader (textAt message.data 0) = some root → root.Flat) :
    (∀ lpsm, (handshake platform beyond message).result = some (errorSuccess, lpsm) ↔
        ∃ root, Accepted platform message root ∧ lpsm = .ofRoot root) ∧
      (platform.reader (textAt message.data 0) = none →
        ∀ lpsm, (handshake platform beyond message).result ≠ some (errorSuccess, lpsm)) := by
  have hiff : ∀ lpsm, (handshake platform beyond message).result = some (errorSuccess, lpsm) ↔
      ∃ root, Accepted platform message root ∧ lpsm = .ofRoot root := by
    intro lpsm
    by_cases hdataType : message.header.dataType &&& 0x0F = 1
    swap
    · rw [result_handshake_of_ne (.inl hdataType)]
      exact not_success_iff fun root haccepted => hdataType haccepted.dataType
    have hpos := length_pos_of_within hdataType hwithin
    have hfirst : bodyMemory message.data beyond 0 = message.data.getD 0 0 :=
      bodyMemory_eq_getD (by rw [message.length_data]; exact hpos)
    by_cases htag : message.data.getD 0 0 &&& 0x0F = 6
    swap
    · rw [result_handshake_of_ne (.inr (by rw [hfirst]; exact htag))]
      exact not_success_iff fun root haccepted => htag haccepted.tag
    have hfits := (within_handshake hpos).mp hwithin hdataType (by rw [hfirst]; exact htag)
    have hdata : message.data.length = message.header.length := message.length_data
    rw [← hdata] at hfits
    rcases holdsText_or_refused hmalloc hfits with htext | ⟨hlong, hrefused⟩
    · have hsize : sizeT (intAt message.data 1) ≤ message.data.length := (Nat.le_add_left _ _).trans htext
      exact handshake_text_iff hdataType htag htext (hmalloc _ hsize) hflat
    · -- without memory the call does not return, and the length is too large to be accepted
      rw [result_handshake hdataType (by rw [hfirst]; exact htag),
        result_decodeJson_refused htag hfits.1 (Nat.zero_lt_of_lt hlong) hrefused]
      simp only [Option.map_none, reduceCtorEq, false_iff, not_exists]
      rintro root ⟨haccepted, -⟩
      have hlength := haccepted.length
      have hprefixed := hfits.1
      rw [hdata, LPushHeader.length] at hprefixed hlong
      have hsize := sizeT_of_nonneg (n := intAt message.data 1) (by omega)
      rw [Nat.zero_add] at hlong
      omega
  refine ⟨hiff, fun hreader lpsm hresult => ?_⟩
  obtain ⟨root, haccepted, -⟩ := (hiff lpsm).mp hresult
  rw [haccepted.parsed] at hreader
  cases hreader

/-- User 7 of application "app". -/
theorem handshake_success_iff_user :
    ∃ root, Accepted Server.userSetup.platform (handshakeChunk Server.userJson (by decide)) root ∧
      LPushHandshakeMessage.setParams Server.userMembers = .ofRoot root := by
  refine ((handshake_success_iff Server.userSetup.platform (fun _ => 0)
    (handshakeChunk Server.userJson (by decide)) ?_ ?_ ?_).1 _).mp Server.userSetup_handshake
  · intro n hn
    have hlength := length_data_lt (handshakeChunk Server.userJson (by decide))
    have hsmall : n < 2 ^ 47 := by omega
    exact decide_eq_true hsmall
  · rw [within_handshake (by decide)]
    decide +kernel
  · intro root hreader
    simp only [Server.userSetup, knownSetup, knownPlatform] at hreader
    split at hreader
    · obtain rfl := Option.some.inj hreader
      exact ⟨_, rfl, by decide⟩
    · cases hreader

end LinkedonPush
