import LinkedonPush.App.Acceptance

/-!
# Acknowledgements

`recvPushCallback` decodes two strings one behind the other. A wrong tag does not stop it: the string
then counts one byte and stays empty, which only the test at the end notices.
-/

namespace LinkedonPush

open Theory LPushFMT LPushConn

/-- `tag BE32(n) t` with `n = |t|`, and `rest` behind it. -/
def Tagged (data t rest : Bytes) : Prop :=
  ∃ tag l0 l1 l2 l3, data = tag :: l0 :: l1 :: l2 :: l3 :: (t ++ rest) ∧ tag &&& 0x0F = 1 ∧
    (assembleInt l0 l1 l2 l3).toInt = t.length

/-- The first byte is there and is not a NUL. -/
def Starts (s : Bytes) : Prop := ∃ first rest, s = first :: rest ∧ first ≠ 0

/-- The body of an acknowledgement: a task, a message, and anything behind them. -/
structure Acknowledges (data t m : Bytes) : Prop where
  tagged : ∃ behind rest, Tagged data t behind ∧ Tagged behind m rest
  task : Starts t
  message : Starts m

/-- A call of `decodeString` at `offset` stays inside the body. -/
def StringInside (data : Bytes) (offset : Nat) : Prop :=
  offset < data.length ∧ (data.getD offset 0 &&& 0x0F = lpushFmtString → HoldsText data offset)

/-- The bytes it counts. -/
def consumed (data : Bytes) (offset : Nat) : Nat :=
  if data.getD offset 0 &&& 0x0F = lpushFmtString then 5 + sizeT (intAt data (offset + 1)) else 1

/-- The string it finds. -/
def found (data : Bytes) (offset : Nat) : Bytes :=
  if data.getD offset 0 &&& 0x0F = lpushFmtString then cStr (textAt data offset) else []

/-- Both calls stay inside the body. -/
structure CallbackInside (data : Bytes) : Prop where
  first : StringInside data 0
  second : StringInside data (consumed data 0)

section

variable {data t m rest : Bytes} {offset : Nat}

theorem starts_iff {s : Bytes} : Starts s ↔ cStr s ≠ [] := by
  cases s with
  | nil =>
      constructor
      · rintro ⟨first, rest, h, -⟩
        cases h
      · intro h
        exact (h rfl).elim
  | cons first rest =>
      by_cases hfirst : first = 0
      · have hnil : cStr (first :: rest) = [] := by
          rw [hfirst]
          rfl
        constructor
        · rintro ⟨first', rest', h, hne⟩
          exact (hne ((List.cons.inj h).1 ▸ hfirst)).elim
        · intro h
          exact (h hnil).elim
      · have hcons : cStr (first :: rest) = first :: cStr rest := by simp [cStr, hfirst]
        constructor
        · intro _
          rw [hcons]
          exact List.cons_ne_nil _ _
        · intro _
          exact ⟨first, rest, rfl, hfirst⟩

theorem starts_of_ne_nil {s : Bytes} (hne : s ≠ []) (hnul : (0 : UInt8) ∉ s) : Starts s := by
  rw [starts_iff, cStr_eq_self hnul]
  exact hne

theorem getD_drop (data : Bytes) (offset i : Nat) : (data.drop offset).getD i 0 = data.getD (offset + i) 0 := by
  rw [List.getD_eq_getElem?_getD, List.getD_eq_getElem?_getD, List.getElem?_drop]

theorem intAt_drop (data : Bytes) (offset i : Nat) : intAt (data.drop offset) i = intAt data (offset + i) := by
  simp only [intAt, getD_drop, Nat.add_assoc]

/-- The five bytes before a text, at their offset. -/
theorem prefix_of_drop {tag l0 l1 l2 l3 : UInt8} {behind : Bytes}
    (hdata : data.drop offset = tag :: l0 :: l1 :: l2 :: l3 :: behind) :
    data.getD offset 0 = tag ∧ intAt data (offset + 1) = assembleInt l0 l1 l2 l3 ∧
      data.drop (offset + 5) = behind := by
  refine ⟨?_, ?_, ?_⟩
  · have htag := getD_drop data offset 0
    rw [hdata] at htag
    exact htag.symm
  · rw [← intAt_drop, hdata]
    rfl
  · rw [← List.drop_drop, hdata]
    rfl

/-- What the decoder sees of a tagged string. -/
theorem Tagged.spec (h : Tagged (data.drop offset) t rest) :
    data.getD offset 0 &&& 0x0F = lpushFmtString ∧ HoldsText data offset ∧ textAt data offset = t ∧
      sizeT (intAt data (offset + 1)) = t.length ∧ rest = data.drop (offset + (5 + t.length)) := by
  obtain ⟨tag, l0, l1, l2, l3, hdata, htag, hlength⟩ := h
  obtain ⟨htagAt, hint, hbehind⟩ := prefix_of_drop hdata
  have hsize : sizeT (intAt data (offset + 1)) = t.length := by
    have hnonneg := sizeT_of_nonneg (n := assembleInt l0 l1 l2 l3) (by omega)
    rw [hint]
    omega
  have htotal : offset + 5 + (t ++ rest).length = data.length := by
    have hlengths := congrArg List.length hdata
    simp only [List.length_drop, List.length_cons] at hlengths
    omega
  refine ⟨?_, ?_, ?_, hsize, ?_⟩
  · rw [htagAt]
    exact htag
  · rw [HoldsText, hsize, ← htotal, List.length_append]
    omega
  · rw [textAt, hsize, hbehind, List.take_left]
  · rw [← Nat.add_assoc, ← List.drop_drop, hbehind, List.drop_left]

/-- A string that is decoded inside the body is a tagged one. -/
theorem tagged_drop (hsmall : data.length < 2 ^ 31) (htag : data.getD offset 0 &&& 0x0F = lpushFmtString)
    (htext : HoldsText data offset) :
    Tagged (data.drop offset) (textAt data offset)
      (data.drop (offset + (5 + sizeT (intAt data (offset + 1))))) := by
  have hsize := htext
  rw [HoldsText] at hsize
  obtain ⟨tag, l0, l1, l2, l3, behind, hdata⟩ :
      ∃ tag l0 l1 l2 l3 behind, data.drop offset = tag :: l0 :: l1 :: l2 :: l3 :: behind := by
    have hlong : 5 ≤ (data.drop offset).length := by
      rw [List.length_drop]
      omega
    generalize data.drop offset = bytes at hlong
    rcases bytes with _ | ⟨tag, _ | ⟨l0, _ | ⟨l1, _ | ⟨l2, _ | ⟨l3, behind⟩⟩⟩⟩⟩
    case cons.cons.cons.cons.cons => exact ⟨tag, l0, l1, l2, l3, behind, rfl⟩
    all_goals simp at hlong
  obtain ⟨htagAt, hint, hbehind⟩ := prefix_of_drop hdata
  refine ⟨tag, l0, l1, l2, l3, ?_, ?_, ?_⟩
  · rw [hdata, textAt, hbehind, ← Nat.add_assoc, ← List.drop_drop, hbehind, List.take_append_drop]
  · rw [← htagAt]
    exact htag
  · have hlength : (textAt data offset).length = sizeT (intAt data (offset + 1)) := by
      rw [textAt, List.length_take, List.length_drop]
      omega
    rw [hlength, ← hint]
    exact @toInt_of_sizeT _ data.length (by omega) (by omega)

theorem found_ne_nil_iff : found data offset ≠ [] ↔
    data.getD offset 0 &&& 0x0F = lpushFmtString ∧ Starts (textAt data offset) := by
  unfold found
  split
  · rename_i htag
    rw [starts_iff]
    exact (and_iff_right htag).symm
  · rename_i htag
    simp only [ne_eq, not_true_eq_false, htag, false_and]

theorem found_of_ne_nil (h : found data offset ≠ []) : found data offset = cStr (textAt data offset) :=
  if_pos (found_ne_nil_iff.mp h).1

/-- An acknowledgement is what two calls see that both find a string. -/
theorem acknowledges_iff (hsmall : data.length < 2 ^ 31) (hinside : CallbackInside data) :
    Acknowledges data t m ↔ found data 0 ≠ [] ∧ found data (consumed data 0) ≠ [] ∧
      t = textAt data 0 ∧ m = textAt data (consumed data 0) := by
  simp only [found_ne_nil_iff]
  constructor
  · rintro ⟨⟨behind, rest, hfirst, hsecond⟩, htask, hmessage⟩
    obtain ⟨htag, -, rfl, hsize, hbehind⟩ := @Tagged.spec data t _ 0 hfirst
    have hoffset : consumed data 0 = 0 + (5 + (textAt data 0).length) := by
      rw [consumed, if_pos htag, hsize, Nat.zero_add]
    rw [hbehind, ← hoffset] at hsecond
    obtain ⟨htag', -, rfl, -, -⟩ := hsecond.spec
    exact ⟨⟨htag, htask⟩, ⟨htag', hmessage⟩, rfl, rfl⟩
  · rintro ⟨⟨htag, htask⟩, ⟨htag', hmessage⟩, rfl, rfl⟩
    have hfirst := tagged_drop hsmall htag (hinside.first.2 htag)
    have hsecond := tagged_drop hsmall htag' (hinside.second.2 htag')
    have hoffset : consumed data 0 = 0 + (5 + sizeT (intAt data (0 + 1))) := by
      rw [consumed, if_pos htag]
      exact (Nat.zero_add _).symm
    rw [← hoffset, List.drop_zero] at hfirst
    exact ⟨⟨_, _, hfirst, hsecond⟩, htask, hmessage⟩

/-- Every acknowledgement is decoded inside the body. -/
theorem Acknowledges.inside (h : Acknowledges data t m) : CallbackInside data := by
  obtain ⟨⟨behind, rest, hfirst, hsecond⟩, -, -⟩ := h
  obtain ⟨htag, htext, -, hsize, hbehind⟩ := @Tagged.spec data t _ 0 hfirst
  have hoffset : consumed data 0 = 0 + (5 + t.length) := by
    rw [consumed, if_pos htag, hsize, Nat.zero_add]
  rw [hbehind, ← hoffset] at hsecond
  obtain ⟨-, htext', -, -, -⟩ := hsecond.spec
  refine ⟨⟨?_, fun _ => htext⟩, ⟨?_, fun _ => htext'⟩⟩
  · rw [HoldsText] at htext
    omega
  · rw [HoldsText] at htext'
    omega

end

section

variable {platform : Platform} {message : LPushChunk}

/-- A call that stays inside the body. -/
theorem result_decodeString_inside {offset : Nat} (beyond : Nat → UInt8)
    (hmalloc : ∀ n ≤ message.data.length, platform.malloc n = true) (hinside : StringInside message.data offset) :
    (decodeString platform (bodyMemory message.data beyond) offset).result =
      some ((consumed message.data offset : Int), found message.data offset) := by
  obtain ⟨hoffset, htext⟩ := hinside
  unfold consumed found
  split
  · rename_i htag
    have hholds := htext htag
    have hsize : sizeT (intAt message.data (offset + 1)) ≤ message.data.length :=
      (Nat.le_add_left _ _).trans hholds
    obtain ⟨hsum, hint⟩ := toInt_five_add hholds
    rw [result_decodeString_text htag hholds (hmalloc _ hsize), hsum, hint]
    rfl
  · rename_i htag
    apply result_decodeString_of_ne
    rw [bodyMemory_eq_getD hoffset]
    exact htag

theorem consumed_pos (data : Bytes) (offset : Nat) : 0 < consumed data offset := by
  unfold consumed
  split <;> omega

/-- The two calls and the test at the end. -/
theorem result_recvPushCallback (conf : LPushConfig) (beyond : Nat → UInt8)
    (hmalloc : ∀ n ≤ message.data.length, platform.malloc n = true) (hinside : CallbackInside message.data) :
    (recvPushCallback conf platform beyond message).result = some
      (if found message.data 0 ≠ [] ∧ found message.data (consumed message.data 0) ≠ [] then
        (errorSuccess, [RedisClient.lPushForList
          (conf.resultList ++ found message.data (consumed message.data 0)) (found message.data 0)])
      else (errorObjectNotExist, [])) := by
  have hpos := consumed_pos message.data 0
  have hpos' := consumed_pos message.data (consumed message.data 0)
  unfold recvPushCallback
  rw [Access.result_bind, result_decodeString_inside beyond hmalloc hinside.first, Option.bind_some]
  dsimp only
  rw [if_neg (by omega), Access.result_bind, Int.toNat_natCast,
    result_decodeString_inside beyond hmalloc hinside.second, Option.bind_some]
  dsimp only
  rw [if_neg (by omega)]
  cases found message.data (consumed message.data 0) with
  | nil => simp
  | cons first rest =>
      cases found message.data 0 with
      | nil => simp
      | cons first' rest' => simp

/-- Where every block is granted, the two calls read only bytes of the body exactly if they stay
inside it. -/
theorem within_recvPushCallback_iff {conf : LPushConfig} {beyond : Nat → UInt8}
    (hmalloc : ∀ n, platform.malloc n = true) :
    (recvPushCallback conf platform beyond message).Within message.header.length ↔ CallbackInside message.data := by
  have hfits : ∀ offset, StringFits platform (bodyMemory message.data beyond) message.header.length offset ↔
      StringInside message.data offset := by
    intro offset
    rw [StringFits, StringInside, ← message.length_data]
    apply and_congr_right
    intro hoffset
    rw [bodyMemory_eq_getD hoffset]
    apply forall_congr'
    intro _
    simp only [TextFits, hmalloc, Bool.true_eq_false, or_false, HoldsText]
    constructor
    · rintro ⟨hprefixed, htext⟩
      rwa [innerLength_bodyMemory (by omega)] at htext
    · intro htext
      refine ⟨by omega, ?_⟩
      rwa [innerLength_bodyMemory (by omega)]
  have hsecond : StringInside message.data 0 →
      secondString platform (bodyMemory message.data beyond) = some (consumed message.data 0) := by
    rintro ⟨hoffset, htext⟩
    rw [secondString, bodyMemory_eq_getD hoffset, consumed]
    split
    · rename_i htag
      have hholds := htext htag
      obtain ⟨hsum, hint⟩ := toInt_five_add hholds
      have hprefixed : 0 + 1 + 4 ≤ message.data.length := (Nat.le_add_right _ _).trans hholds
      have hlength : (5 + innerLength (bodyMemory message.data beyond) 1).toInt =
          ((5 + sizeT (intAt message.data (0 + 1)) : Nat) : Int) := by
        rw [innerLength_bodyMemory hprefixed]
        exact hsum.trans (by rw [hint]; rfl)
      dsimp only
      rw [hmalloc, hlength, Int.toNat_natCast, Bool.true_and, if_pos (decide_eq_true (by omega))]
    · rfl
  rw [within_recvPushCallback, CallbackFits, hfits]
  constructor
  · rintro ⟨hfirst, hthen⟩
    exact ⟨hfirst, (hfits _).mp (hthen _ (hsecond hfirst))⟩
  · rintro ⟨hfirst, hthen⟩
    refine ⟨hfirst, fun offset hoffset => ?_⟩
    obtain rfl := Option.some.inj ((hsecond hfirst).symm.trans hoffset)
    exact (hfits _).mpr hthen

/-- The body the test client answers with. -/
def callbackBody (taskId msgId : Bytes) : Bytes :=
  1 :: (intBytes (BitVec.ofNat 32 taskId.length) ++
    (taskId ++ 1 :: (intBytes (BitVec.ofNat 32 msgId.length) ++ msgId)))

theorem tagged_intBytes {t : Bytes} (hsmall : t.length < 2 ^ 31) (rest : Bytes) :
    Tagged (1 :: (intBytes (BitVec.ofNat 32 t.length) ++ (t ++ rest))) t rest :=
  ⟨1, _, _, _, _, rfl, by decide, by rw [assembleInt_byteAt, toInt_ofNat hsmall]⟩

theorem acknowledges_callbackBody {taskId msgId : Bytes} (hsmall : (callbackBody taskId msgId).length < 2 ^ 31)
    (htask : Starts taskId) (hmessage : Starts msgId) :
    Acknowledges (callbackBody taskId msgId) taskId msgId := by
  have hlengths : taskId.length + msgId.length < 2 ^ 31 := by
    simp only [callbackBody, List.length_append, List.length_cons] at hsmall
    omega
  have hsecond := tagged_intBytes (t := msgId) (by omega) []
  rw [List.append_nil] at hsecond
  exact ⟨⟨_, [], tagged_intBytes (by omega) _, hsecond⟩, htask, hmessage⟩

end

/-- **Acknowledgements.** Where both calls stay inside the body, the pair of an acknowledgement is
recorded by one command, and any other body is answered with an error and no command. The pair a
client answers with is the one that is recorded. -/
theorem recvPushCallback_iff (conf : LPushConfig) (platform : Platform) (beyond : Nat → UInt8)
    (message : LPushChunk) (hmalloc : ∀ n ≤ message.data.length, platform.malloc n = true) :
    (CallbackInside message.data →
      (∀ t m, Acknowledges message.data t m → ∃ command,
        (recvPushCallback conf platform beyond message).result = some (errorSuccess, [command]) ∧
          command = RedisClient.lPushForList (conf.resultList ++ cStr m) (cStr t) ∧
            ((0 : UInt8) ∉ conf.resultList → command = .lpush (conf.resultList ++ cStr m) (cStr t))) ∧
      ((¬ ∃ t m, Acknowledges message.data t m) →
        ∃ ret, ret ≠ errorSuccess ∧ (recvPushCallback conf platform beyond message).result = some (ret, []))) ∧
    ∀ taskId msgId, taskId ≠ [] → (0 : UInt8) ∉ taskId → msgId ≠ [] → (0 : UInt8) ∉ msgId →
      message.data = callbackBody taskId msgId →
        (recvPushCallback conf platform beyond message).result =
          some (errorSuccess, [RedisClient.lPushForList (conf.resultList ++ msgId) taskId]) := by
  have hrecorded : CallbackInside message.data → ∀ t m, Acknowledges message.data t m →
      (recvPushCallback conf platform beyond message).result =
        some (errorSuccess, [RedisClient.lPushForList (conf.resultList ++ cStr m) (cStr t)]) := by
    intro hinside t m hack
    rw [acknowledges_iff (length_data_lt message) hinside] at hack
    obtain ⟨htask, hmessage, rfl, rfl⟩ := hack
    rw [result_recvPushCallback conf beyond hmalloc hinside, if_pos ⟨htask, hmessage⟩, found_of_ne_nil htask,
      found_of_ne_nil hmessage]
  refine ⟨fun hinside => ⟨fun t m hack => ?_, fun hnone => ?_⟩, ?_⟩
  · refine ⟨_, hrecorded hinside t m hack, rfl, fun hlist => ?_⟩
    rw [RedisClient.lPushForList, cStr_append_of_notMem hlist, cStr_cStr, cStr_cStr]
  · refine ⟨errorObjectNotExist, by decide, ?_⟩
    rw [result_recvPushCallback conf beyond hmalloc hinside, if_neg]
    rintro ⟨htask, hmessage⟩
    exact hnone ⟨_, _, (acknowledges_iff (length_data_lt message) hinside).mpr ⟨htask, hmessage, rfl, rfl⟩⟩
  · intro taskId msgId htask htaskNul hmessage hmessageNul hdata
    have hsmall := length_data_lt message
    have hack := acknowledges_callbackBody (by rw [← hdata]; exact hsmall) (starts_of_ne_nil htask htaskNul)
      (starts_of_ne_nil hmessage hmessageNul)
    rw [← hdata] at hack
    rw [hrecorded hack.inside taskId msgId hack, cStr_eq_self htaskNul, cStr_eq_self hmessageNul]

/-- The acknowledgement of message "m1" of task "t1". -/
def callbackChunk : LPushChunk := ⟨⟨0, lpushHeaderTypePush, 14⟩, callbackBody (text "t1") (text "m1"), rfl⟩

theorem recvPushCallback_iff_callback :
    (recvPushCallback bareConfig barePlatform (fun _ => 0) callbackChunk).result =
      some (errorSuccess, [RedisClient.lPushForList (text "RESULT_" ++ text "m1") (text "t1")]) := by
  refine (recvPushCallback_iff bareConfig barePlatform (fun _ => 0) callbackChunk fun n hn => ?_).2
    (text "t1") (text "m1") (by decide) (by decide) (by decide) (by decide) rfl
  have hlength := length_data_lt callbackChunk
  have hsmall : n < 2 ^ 47 := by omega
  exact decide_eq_true hsmall

end LinkedonPush
