import LinkedonPush.App.LPushConn

/-!
# Which bytes of a body are read

`handshake` and `recvPushCallback` hand the decoders a pointer and no length. They stay inside the
body exactly where the inner lengths do, which nothing in the code checks.
-/

namespace LinkedonPush

open Theory LPushFMT

/-- A string may be decoded at `data`: its tag is inside, and what the tag announces too. -/
def StringFits (platform : Platform) (memory : Nat → UInt8) (size data : Nat) : Prop :=
  data < size ∧ (memory data &&& 0x0F = lpushFmtString → TextFits platform memory size data)

/-- Where the second string of an acknowledgement starts; `none` if the first one is not granted
memory or has no positive length. -/
def secondString (platform : Platform) (memory : Nat → UInt8) : Option Nat :=
  if memory 0 &&& 0x0F = lpushFmtString then
    let n := innerLength memory 1
    if platform.malloc (sizeT n) && 0 < (5 + n).toInt then some (5 + n).toInt.toNat else none
  else some 1

/-- The JSON text of a handshake frame, where `handshake` gets to it, lies in the body. -/
def HandshakeFits (platform : Platform) (beyond : Nat → UInt8) (message : LPushChunk) : Prop :=
  message.header.dataType &&& 0x0F = LPushProtocol.lpushHeaderTypeHandshake →
    bodyMemory message.data beyond 0 &&& 0x0F = lpushFmtJson →
      TextFits platform (bodyMemory message.data beyond) message.header.length 0

/-- Both strings of an acknowledgement, as far as `recvPushCallback` decodes them, lie in the body. -/
def CallbackFits (platform : Platform) (beyond : Nat → UInt8) (message : LPushChunk) : Prop :=
  StringFits platform (bodyMemory message.data beyond) message.header.length 0 ∧
    ∀ data, secondString platform (bodyMemory message.data beyond) = some data →
      StringFits platform (bodyMemory message.data beyond) message.header.length data

instance {platform : Platform} {memory : Nat → UInt8} {size data : Nat} :
    Decidable (TextFits platform memory size data) :=
  inferInstanceAs (Decidable (_ ∧ (_ ∨ _)))

instance {platform : Platform} {beyond : Nat → UInt8} {message : LPushChunk} :
    Decidable (HandshakeFits platform beyond message) :=
  inferInstanceAs (Decidable (_ → _ → _))

section

variable {platform : Platform} {memory : Nat → UInt8}

/-- The first decoder returns exactly where `secondString` says so. -/
theorem result_decodeString :
    (∃ result taskId, (decodeString platform memory 0).result = some (result, taskId) ∧ 0 < result ∧
        secondString platform memory = some result.toNat) ∨
      secondString platform memory = none ∧
        ∀ result taskId, (decodeString platform memory 0).result = some (result, taskId) → result ≤ 0 := by
  unfold secondString decodeString
  rw [Access.result_bind, result_readByte, Option.bind_some]
  split
  · rw [Access.result_bind, result_readLength, Option.bind_some, Access.result_bind]
    dsimp only
    unfold copyOut
    cases hmalloc : platform.malloc (sizeT (innerLength memory 1)) with
    | true =>
        by_cases hpos : 0 < (5 + innerLength memory 1).toInt
        · left
          exact ⟨_, _, rfl, hpos, if_pos (by rw [Bool.true_and]; exact decide_eq_true hpos)⟩
        · right
          simp only [hpos, decide_false, Bool.and_false, Bool.false_eq_true, if_false, true_and]
          intro result taskId hresult
          obtain ⟨rfl, -⟩ := Prod.mk.inj (Option.some.inj hresult)
          exact not_lt.mp hpos
    | false =>
        right
        simp only [Bool.false_and, Bool.false_eq_true, if_false, true_and]
        intro result taskId hresult
        -- without memory, the decoder dies before it returns
        split at hresult
        · cases hresult
        · cases hresult
  · left
    exact ⟨_, _, rfl, by decide, rfl⟩

end

theorem within_recvPushCallback {conf : LPushConfig} {platform : Platform} {beyond : Nat → UInt8}
    {message : LPushChunk} :
    (LPushConn.recvPushCallback conf platform beyond message).Within message.header.length ↔
      CallbackFits platform beyond message := by
  unfold LPushConn.recvPushCallback CallbackFits StringFits
  dsimp only
  rw [Access.within_bind, within_decodeString]
  apply and_congr_right
  intro _
  rcases @result_decodeString platform (bodyMemory message.data beyond) with
    ⟨result, taskId, hresult, hpos, hsecond⟩ | ⟨hnone, hresult⟩
  · rw [hresult, hsecond]
    simp only [Option.some.injEq, forall_eq', if_neg (not_le.mpr hpos)]
    rw [Access.within_bind, within_decodeString]
    simp only [and_iff_left_iff_imp]
    intro _ decoded _
    split
    · exact Access.within_pure _ _
    · split
      · exact Access.within_pure _ _
      · exact Access.within_pure _ _
  · rw [hnone]
    simp only [reduceCtorEq, false_implies, implies_true, iff_true]
    intro decoded hdecoded
    rw [if_pos (hresult decoded.1 decoded.2 hdecoded)]
    exact Access.within_pure _ _

/-- **Inner lengths.** For a frame that `readMessage` accepts, the handshake and the acknowledgement
read only bytes of the body exactly if the lengths written inside it fit. -/
theorem within_body_iff (conf : LPushConfig) (platform : Platform) (beyond : Nat → UInt8)
    (message : LPushChunk) (hlow : 1 ≤ message.header.datalenght.toInt)
    (_hhigh : message.header.datalenght.toInt ≤ LPushProtocol.lpushHandshakeDataMax) :
    ((LPushProtocol.handshake platform beyond message).Within message.header.length ↔
        HandshakeFits platform beyond message) ∧
      ((LPushConn.recvPushCallback conf platform beyond message).Within message.header.length ↔
        CallbackFits platform beyond message) := by
  have hpos : 0 < message.header.length := by
    simp only [LPushHeader.length]
    omega
  exact ⟨LPushProtocol.within_handshake hpos, within_recvPushCallback⟩

/-- A handshake frame of five bytes that announces a text of 200. -/
def overlongHandshake : LPushChunk := ⟨⟨0, 1, 5⟩, [6, 0, 0, 0, 200], rfl⟩

theorem within_body_iff_overlong :
    ¬ (LPushProtocol.handshake barePlatform (fun _ => 0) overlongHandshake).Within 5 := by
  intro hwithin
  have hfits := (within_body_iff bareConfig barePlatform (fun _ => 0) overlongHandshake (by decide)
    (by decide)).1.mp hwithin
  exact absurd hfits (by decide)

/-- The announced text is read up to offset 204. -/
theorem not_within_body :
    ¬ ∀ (conf : LPushConfig) (platform : Platform) (beyond : Nat → UInt8) (message : LPushChunk),
      1 ≤ message.header.datalenght.toInt →
        message.header.datalenght.toInt ≤ LPushProtocol.lpushHandshakeDataMax →
          (LPushProtocol.handshake platform beyond message).Within message.header.length ∧
            (LPushConn.recvPushCallback conf platform beyond message).Within message.header.length := by
  intro hall
  have hwithin := (hall bareConfig barePlatform (fun _ => 0) overlongHandshake (by decide)
    (by decide)).1
  have hpos : 0 < overlongHandshake.header.length := by decide
  exact absurd ((LPushProtocol.within_handshake hpos).mp hwithin) (by decide)

end LinkedonPush
