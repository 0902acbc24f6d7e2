import LinkedonPush.Protocol.Receive

/-!
# The headers that pass

`readMessage` looks for the flag with `strstr`, in the header and not at its start. The offsets at
which a flag is found are worked out here, and with them the streams that are accepted although they
do not start with a frame.
-/

namespace LinkedonPush

open Theory LPushProtocol

/-- The flag lies at an offset, and no NUL before it ends the search. -/
structure FlagAt (s : Bytes) (offset : Nat) : Prop where
  flag : (s.drop offset).take 5 = lpushFlag
  reached : (0 : UInt8) ∉ s.take offset

instance (s : Bytes) (offset : Nat) : Decidable (FlagAt s offset) :=
  decidable_of_iff ((s.drop offset).take 5 = lpushFlag ∧ (0 : UInt8) ∉ s.take offset)
    ⟨fun h => ⟨h.1, h.2⟩, fun h => ⟨h.flag, h.reached⟩⟩

/-- The length at offset 10 is acceptable and the stream delivers as much. -/
structure Sized (s : Bytes) : Prop where
  low : 1 ≤ (intAt s 10).toInt
  high : (intAt s 10).toInt ≤ 400
  delivered : 14 + (intAt s 10).toInt ≤ s.length

instance (s : Bytes) : Decidable (Sized s) :=
  decidable_of_iff (1 ≤ (intAt s 10).toInt ∧ (intAt s 10).toInt ≤ 400 ∧
      14 + (intAt s 10).toInt ≤ s.length)
    ⟨fun h => ⟨h.1, h.2.1, h.2.2⟩, fun h => ⟨h.low, h.high, h.delivered⟩⟩

/-- A frame as the protocol means it: the flag comes first. -/
structure StartsFrame (s : Bytes) : Prop where
  flag : s.take 5 = lpushFlag
  sized : Sized s

instance (s : Bytes) : Decidable (StartsFrame s) :=
  decidable_of_iff (s.take 5 = lpushFlag ∧ Sized s) ⟨fun h => ⟨h.1, h.2⟩, fun h => ⟨h.flag, h.sized⟩⟩

/-- Of the first ten bytes the flag takes up five, but not the first ones. -/
structure Strayed (s : Bytes) : Prop where
  sized : Sized s
  notFirst : ¬ FlagAt s 0
  later : ∃ offset ∈ [1, 2, 3, 4, 5], FlagAt s offset

instance (s : Bytes) : Decidable (Strayed s) :=
  decidable_of_iff (Sized s ∧ ¬ FlagAt s 0 ∧ ∃ offset ∈ [1, 2, 3, 4, 5], FlagAt s offset)
    ⟨fun h => ⟨h.1, h.2.1, h.2.2⟩, fun h => ⟨h.sized, h.notFirst, h.later⟩⟩

theorem flagAt_zero_iff {s : Bytes} : FlagAt s 0 ↔ s.take 5 = lpushFlag := by
  constructor
  · intro h
    exact h.flag
  · intro h
    exact ⟨h, List.not_mem_nil⟩

theorem FlagAt.length_le {s : Bytes} {offset : Nat} (h : FlagAt s offset) : offset + 5 ≤ s.length := by
  have hlength := congrArg List.length h.flag
  rw [List.length_take, List.length_drop, show lpushFlag.length = 5 from rfl] at hlength
  omega

/-- The search in the ten bytes before the length. -/
theorem occursIn_lpushFlag_iff {s : Bytes} :
    occursIn lpushFlag (cStr (s.take 10)) = true ↔ ∃ offset ≤ 5, FlagAt s offset := by
  have hflag : (0 : UInt8) ∉ lpushFlag := by decide
  rw [occursIn, decide_eq_true_iff, cStr_eq_self hflag, isInfix_cStr_iff hflag]
  have hwithin : ∀ offset ≤ 5, ((s.take 10).drop offset).take 5 = (s.drop offset).take 5 := by
    intro offset hoffset
    rw [List.drop_take, List.take_take, Nat.min_eq_left (by omega)]
  have hbefore : ∀ offset ≤ 5, (s.take 10).take offset = s.take offset := by
    intro offset hoffset
    rw [List.take_take, Nat.min_eq_left (by omega)]
  constructor
  · rintro ⟨offset, hfound, hreached⟩
    have hoffset : offset ≤ 5 := by
      have hlength := congrArg List.length hfound
      rw [List.length_take, List.length_drop, List.length_take,
        show lpushFlag.length = 5 from rfl] at hlength
      omega
    refine ⟨offset, hoffset, ?_, ?_⟩
    · rw [← hwithin offset hoffset]
      exact hfound
    · rw [← hbefore offset hoffset]
      exact hreached
  · rintro ⟨offset, hoffset, hfound⟩
    refine ⟨offset, ?_, ?_⟩
    · rw [show lpushFlag.length = 5 from rfl, hwithin offset hoffset]
      exact hfound.flag
    · rw [hbefore offset hoffset]
      exact hfound.reached

/-- A stream starts with a frame for `readMessage` if the flag is somewhere in its first ten bytes. -/
theorem parseFrame_frame_iff {s : Bytes} :
    (∃ chunk rest, parseFrame s = .frame chunk rest) ↔ Sized s ∧ ∃ offset ≤ 5, FlagAt s offset := by
  by_cases hshort : s.length < 14
  · constructor
    · rintro ⟨chunk, rest, h⟩
      rw [parseFrame_of_short hshort] at h
      cases h
    · rintro ⟨hsized, -⟩
      have hlow := hsized.low
      have hdelivered := hsized.delivered
      omega
  rw [← occursIn_lpushFlag_iff]
  obtain ⟨f0, f1, f2, f3, f4, t0, t1, t2, t3, dataType, l0, l1, l2, l3, body, rfl⟩ :=
    exists_header_of_length (not_lt.mp hshort)
  have hlength : intAt (f0 :: f1 :: f2 :: f3 :: f4 :: t0 :: t1 :: t2 :: t3 :: dataType ::
      l0 :: l1 :: l2 :: l3 :: body) 10 = assembleInt l0 l1 l2 l3 := rfl
  have hten : (f0 :: f1 :: f2 :: f3 :: f4 :: t0 :: t1 :: t2 :: t3 :: dataType ::
      l0 :: l1 :: l2 :: l3 :: body).take 10 = [f0, f1, f2, f3, f4, t0, t1, t2, t3, dataType] := rfl
  rw [hten]
  simp only [parseFrame]
  constructor
  · rintro ⟨chunk, rest, h⟩
    split at h
    · cases h
    rename_i hrange
    split at h
    · cases h
    rename_i hfound
    refine ⟨?_, Bool.eq_true_of_not_eq_false hfound⟩
    obtain ⟨hlow, hhigh⟩ := not_or.mp hrange
    rw [lpushHandshakeDataMax] at hhigh
    by_cases hbody : (⟨assembleInt t0 t1 t2 t3, dataType, assembleInt l0 l1 l2 l3⟩ : LPushHeader).length
        ≤ body.length
    · simp only [LPushHeader.length] at hbody
      refine ⟨?_, ?_, ?_⟩
      · rw [hlength]
        omega
      · rw [hlength]
        omega
      · rw [hlength]
        simp only [List.length_cons]
        omega
    · rw [LPushChunk.setData_eq_none (not_le.mp hbody)] at h
      cases h
  · rintro ⟨⟨hlow, hhigh, hdelivered⟩, hfound⟩
    rw [hlength] at hlow hhigh hdelivered
    simp only [List.length_cons] at hdelivered
    have hrange : ¬ ((assembleInt l0 l1 l2 l3).toInt ≤ 0 ∨
        lpushHandshakeDataMax < (assembleInt l0 l1 l2 l3).toInt) := by
      rw [lpushHandshakeDataMax]
      omega
    have hbody : (⟨assembleInt t0 t1 t2 t3, dataType, assembleInt l0 l1 l2 l3⟩ : LPushHeader).length
        ≤ body.length := by
      simp only [LPushHeader.length]
      omega
    rw [if_neg hrange, hfound, if_neg (by simp), LPushChunk.setData_eq_some hbody]
    exact ⟨_, _, rfl⟩

/-- A call of `readMessage` that returns a frame. -/
def Succeeds (eof : SocketError) (b : LPushFastBuffer) (feed : Reading.Feed UInt8) : Prop :=
  ∃ chunk b' feed', (readMessage b).run eof feed = some ((errorSuccess, chunk, b'), feed')

section

variable {b : LPushFastBuffer}

/-- The accepted streams. -/
theorem succeeds_iff (hb : b.WellFormed) (hnb : b.nbBuffer = lpDefaultRecvBufferSize) (eof : SocketError)
    (feed : Reading.Feed UInt8) :
    Succeeds eof b feed ↔ Sized (unread b feed) ∧ ∃ offset ≤ 5, FlagAt (unread b feed) offset := by
  rw [← parseFrame_frame_iff]
  obtain ⟨ret, chunk, b', feed', hrun, -, -, hret⟩ := run_readMessage hb hnb eof feed
  rw [Succeeds, hrun]
  constructor
  · rintro ⟨chunk', b'', feed'', heq⟩
    obtain ⟨hcode, -⟩ := Prod.mk.inj (Prod.mk.inj (Option.some.inj heq)).1
    rcases hret with ⟨-, hframe⟩ | ⟨hne, -⟩
    · exact ⟨_, _, hframe⟩
    · exact (hne hcode).elim
  · rintro ⟨chunk', rest, hframe⟩
    rcases hret with ⟨rfl, -⟩ | ⟨-, hnone⟩
    · exact ⟨_, _, _, rfl⟩
    · exact (hnone _ _ hframe).elim

/-- No frame is turned away. -/
theorem succeeds_of_startsFrame (hb : b.WellFormed) (hnb : b.nbBuffer = lpDefaultRecvBufferSize)
    {eof : SocketError} {feed : Reading.Feed UInt8} (h : StartsFrame (unread b feed)) :
    Succeeds eof b feed := by
  rw [succeeds_iff hb hnb]
  exact ⟨h.sized, 0, Nat.zero_le 5, flagAt_zero_iff.mpr h.flag⟩

/-- **Which streams are accepted.** `readMessage` accepts exactly the streams that start with a
frame, unless the flag is found behind the first byte of the header only. -/
theorem succeeds_iff_startsFrame_iff (hb : b.WellFormed) (hnb : b.nbBuffer = lpDefaultRecvBufferSize)
    (eof : SocketError) (feed : Reading.Feed UInt8) :
    (Succeeds eof b feed ↔ StartsFrame (unread b feed)) ↔ ¬ Strayed (unread b feed) := by
  constructor
  · intro hexact hstrayed
    obtain ⟨offset, hoffset, hfound⟩ := hstrayed.later
    have hle : offset ≤ 5 := by
      simp only [List.mem_cons, List.not_mem_nil, or_false] at hoffset
      omega
    have hframe := hexact.mp ((succeeds_iff hb hnb eof feed).mpr ⟨hstrayed.sized, offset, hle, hfound⟩)
    exact hstrayed.notFirst (flagAt_zero_iff.mpr hframe.flag)
  · intro hstrayed
    refine ⟨fun hsucceeds => ?_, succeeds_of_startsFrame hb hnb⟩
    obtain ⟨hsized, offset, hoffset, hfound⟩ := (succeeds_iff hb hnb eof feed).mp hsucceeds
    refine ⟨?_, hsized⟩
    rw [← flagAt_zero_iff]
    by_contra hnotFirst
    apply hstrayed
    refine ⟨hsized, hnotFirst, offset, ?_, hfound⟩
    have hpos : offset ≠ 0 := by
      rintro rfl
      exact hnotFirst hfound
    simp only [List.mem_cons, List.not_mem_nil, or_false]
    omega

/-- Two heartbeats, the second of which has not arrived completely. -/
theorem succeeds_iff_startsFrame_heartbeats :
    (Succeeds .read (.fresh []) ⟨sendPacket heartbeatChunk ++ [76, 80], fun _ => 4⟩ ↔
      StartsFrame (unread (.fresh []) ⟨sendPacket heartbeatChunk ++ [76, 80], fun _ => 4⟩)) ↔
      ¬ Strayed (unread (.fresh []) ⟨sendPacket heartbeatChunk ++ [76, 80], fun _ => 4⟩) :=
  succeeds_iff_startsFrame_iff (LPushFastBuffer.fresh_wellFormed []) rfl .read _

/-- A heartbeat whose flag starts one byte late. -/
def strayHeartbeat : Bytes := [88, 76, 80, 85, 83, 72, 1, 1, 1, 5, 0, 0, 0, 1, 1]

theorem not_succeeds_iff_startsFrame :
    ¬ (Succeeds .read (.fresh []) ⟨strayHeartbeat, fun _ => 4⟩ ↔
      StartsFrame (unread (.fresh []) ⟨strayHeartbeat, fun _ => 4⟩)) := by
  have hunread : unread (.fresh []) ⟨strayHeartbeat, fun _ => 4⟩ = strayHeartbeat := rfl
  have hsucceeds := succeeds_iff (LPushFastBuffer.fresh_wellFormed []) rfl .read ⟨strayHeartbeat, fun _ => 4⟩
  rw [hunread] at hsucceeds ⊢
  intro hexact
  have hframe := hexact.mp (hsucceeds.mpr ⟨by decide, 1, by decide, by decide⟩)
  exact absurd hframe.flag (by decide)

end

end LinkedonPush
