import LinkedonPush.App.Acknowledgement
import LinkedonPush.App.Accounting
import LinkedonPush.App.Arrival
import LinkedonPush.Protocol.Codec

/-!
# The client at the other end

The client of the tests introduces itself, sends heartbeats and answers every push frame with the
identifiers it has found in it. Here it is put at the other end of a connection of the server.
-/

namespace LinkedonPush

open Theory LPushFMT LPushProtocol

/-! ### The client -/

structure LpushTest where
  userId : Bytes
  appId : Bytes
  screteKey : Bytes
  clientFlag : Bytes
  identity : Bytes
  devices : Bytes

/-- The size of the array in `print_message`. -/
def printSize : Nat := 1024

namespace LpushTest

/-- The size of `buf`. -/
def bufferSize : Nat := 256 * 1024

/-- The size of the array in `thread_recv` that an answer is put together in. -/
def answerSize : Nat := 10240

/-- The first 14 bytes of a frame. -/
def setPacketHeader (now : Int) (datatype : UInt8) (datalen : Nat) : Bytes :=
  headerBytes ⟨BitVec.ofInt 32 now, datatype, BitVec.ofNat 32 datalen⟩

def headjson (platform : Platform) (test : LpushTest) : StringMap :=
  [(text "appId", test.appId), (text "screteKey", test.screteKey), (text "userId", test.userId),
    (text "clientFlag", test.clientFlag),
    (text "md5Data", md5Encoder platform (test.userId ++ test.appId ++ test.screteKey)),
    (text "identity", test.identity), (text "devices", test.devices)]

/-- What `mapToJsonStr` prints; `Trim` makes a copy, which both callers drop. -/
def handshakeText (platform : Platform) (test : LpushTest) : Bytes :=
  platform.writer (person (test.headjson platform))

/-- The first frame; `none` where it runs out of `buf`. -/
def sendHandshakeMessage (platform : Platform) (test : LpushTest) (now : Int) : Option Bytes :=
  let msg := test.handshakeText platform
  if 19 + msg.length ≤ bufferSize then
    some (setPacketHeader now 0x01 (msg.length + 5) ++ 0x06 :: (intBytes (BitVec.ofNat 32 msg.length) ++ msg))
  else none

/-- The second frame of `send_handshake_message`. -/
def sendConnectMessage (now : Int) : Bytes := setPacketHeader now 0x04 1 ++ text "c"

def sendHeart (now : Int) : Bytes := setPacketHeader now 0x05 1 ++ [0x01]

/-- What `thread_recv` sends for a frame; `none` where it runs out of the array. -/
def answer (now : Int) (frame : SeenFrame) : Option Bytes :=
  let taskId := frame.jsonValuemap.get (text "TaskId")
  let msg := frame.jsonValuemap.get (text "MsgId")
  if 24 + taskId.length + msg.length ≤ answerSize then
    some (setPacketHeader now frame.header.dataType (taskId.length + 5 + msg.length + 5) ++ callbackBody taskId msg)
  else none

/-- A client that has been told it is connected and whose sends succeed: the bytes it has received
since then, and all that it has sent. -/
inductive Talks (platform : Platform) (test : LpushTest) (beyond : Nat → UInt8) : Bytes → Bytes → Prop where
  | opens {handshake : Bytes} (now now' : Int) (h : test.sendHandshakeMessage platform now = some handshake) :
      Talks platform test beyond [] (handshake ++ sendConnectMessage now')
  | heart {received out : Bytes} (now : Int) (before : Talks platform test beyond received out) :
      Talks platform test beyond received (out ++ sendHeart now)
  /-- `thread_recv` has filled its buffer once, and the last frame in it ends with it. -/
  | recv {received out : Bytes} (buf : Bytes) (frames : List SeenFrame) (answers : List Bytes)
      (before : Talks platform test beyond received out)
      (hframes : threadRecv printSize platform beyond buf = some frames)
      (hanswers : List.Forall₂ (fun frame bytes => ∃ now, answer now frame = some bytes) frames answers) :
      Talks platform test beyond (received ++ buf) (out ++ answers.flatten)

end LpushTest

/-! ### Frames of a stream -/

section frames

variable {chunk : LPushChunk}

/-- A frame whose length is out of range is not taken. -/
theorem parseFrame_sendPacket_of_long (hlong : lpushHandshakeDataMax < chunk.header.datalenght.toInt ∨
    chunk.header.datalenght.toInt ≤ 0) (rest : Bytes) (chunk' : LPushChunk) (rest' : Bytes) :
    parseFrame (sendPacket chunk ++ rest) ≠ .frame chunk' rest' := by
  have hrange : chunk.header.datalenght.toInt ≤ 0 ∨ lpushHandshakeDataMax < chunk.header.datalenght.toInt :=
    hlong.symm
  simp only [sendPacket, headerBytes, List.cons_append, List.nil_append, parseFrame, assembleInt_byteAt,
    if_pos hrange]
  exact Parsed.noConfusion

/-- What is read of frames written back to back are frames among them, up to one that is too long. -/
theorem frames_flatMap_isPrefix (chunks : List LPushChunk) : frames (chunks.flatMap sendPacket) <+: chunks := by
  induction chunks with
  | nil =>
      rw [List.flatMap_nil, frames_of_not_frame]
      intro chunk rest h
      have hlength := length_of_parseFrame h
      rw [List.length_nil] at hlength
      omega
  | cons chunk chunks ih =>
      rw [List.flatMap_cons]
      by_cases hrange : 1 ≤ chunk.header.datalenght.toInt ∧ chunk.header.datalenght.toInt ≤ lpushHandshakeDataMax
      · rw [frames_of_frame (parseFrame_sendPacket hrange.1 hrange.2 _)]
        exact (List.prefix_cons_inj chunk).mpr ih
      · rw [frames_of_not_frame (parseFrame_sendPacket_of_long (by omega) _)]
        exact List.nil_prefix

theorem frames_flatMap {chunks : List LPushChunk} (h : ∀ chunk ∈ chunks, 1 ≤ chunk.header.datalenght.toInt ∧
    chunk.header.datalenght.toInt ≤ lpushHandshakeDataMax) : frames (chunks.flatMap sendPacket) = chunks := by
  induction chunks with
  | nil => exact List.prefix_nil.mp (frames_flatMap_isPrefix [])
  | cons chunk chunks ih =>
      obtain ⟨hchunk, hchunks⟩ := List.forall_mem_cons.mp h
      rw [List.flatMap_cons, frames_of_frame (parseFrame_sendPacket hchunk.1 hchunk.2 _), ih hchunks]

end frames

/-! ### What the client sees -/

section carries

variable {platform : Platform} {chunk : LPushChunk} {work : LPushWorkerMessage} {beyond : Nat → UInt8} {buf : Bytes}

theorem Carries.toInt (h : Carries platform chunk work) (htransmissible : Transmissible platform printSize work) :
    chunk.header.datalenght.toInt = (((work.toJsonString platform).length + 5 : Nat) : Int) := by
  have hlength := htransmissible.length
  rw [h.datalenght, toInt_ofNat (by omega)]

/-- `print_message` looks at the first 14 bytes only. -/
theorem printMessage_append {header : LPushHeader} {k : Int} (h : printMessage printSize buf = some (header, k))
    (more : Bytes) : printMessage printSize (buf ++ more) = some (header, k) := by
  unfold printMessage at h
  split at h
  · exact h
  · cases h

/-- A buffer that ends inside its first frame is not understood. -/
theorem threadRecv_short (h : Carries platform chunk work) (htransmissible : Transmissible platform printSize work)
    (hne : buf ≠ []) {more : Bytes} (hmore : more ≠ []) (hbuf : buf ++ more = sendPacket chunk) :
    threadRecv printSize platform beyond buf = none := by
  have hlong : buf.length ≠ 0 := fun hzero => hne (List.length_eq_zero_iff.mp hzero)
  rw [threadRecv, if_neg hlong]
  cases hprint : printMessage printSize buf with
  | none => rfl
  | some seen =>
      obtain ⟨header, k⟩ := seen
      have hsame := printMessage_append hprint more
      rw [hbuf] at hsame
      have hheader := printMessage_sendPacket h.dataType h.datalenght htransmissible.length htransmissible.fits []
      rw [List.append_nil] at hheader
      cases hsame.symm.trans hheader
      dsimp only
      have hshort : ¬ (0 < chunk.header.datalenght.toInt + 14 ∧
          chunk.header.datalenght.toInt + 14 ≤ buf.length) := by
        have hint := h.toInt htransmissible
        have htotal := congrArg List.length hbuf
        have hpos := List.length_pos_iff.mpr hmore
        rw [length_sendPacket, List.length_append, LPushHeader.length] at htotal
        omega
      split
      · rfl
      · rw [dif_neg hshort]

/-- **Buffers that are understood end with a frame**: they hold the next push frames, and all of them
are seen. -/
theorem threadRecv_aligned {chunks : List LPushChunk} {works : List LPushWorkerMessage} {seen : List SeenFrame}
    (hcarries : List.Forall₂ (Carries platform) chunks works)
    (htransmissible : ∀ work ∈ works, Transmissible platform printSize work) (hbuf : buf <+: chunks.flatMap sendPacket)
    (hseen : threadRecv printSize platform beyond buf = some seen) :
    ∃ k, buf = (chunks.take k).flatMap sendPacket ∧ List.Forall₂ Sees (works.take k) seen := by
  induction hcarries generalizing buf seen with
  | nil =>
      rw [List.flatMap_nil, List.prefix_nil] at hbuf
      rw [hbuf, threadRecv, if_pos List.length_nil] at hseen
      cases hseen
      exact ⟨0, hbuf, .nil⟩
  | @cons chunk work chunks works hchunk hrest ih =>
      obtain ⟨hwork, hworks⟩ := List.forall_mem_cons.mp htransmissible
      rw [List.flatMap_cons] at hbuf
      have hwhole : ∀ rest, rest <+: chunks.flatMap sendPacket → buf = sendPacket chunk ++ rest →
          ∃ k, buf = ((chunk :: chunks).take k).flatMap sendPacket ∧
            List.Forall₂ Sees ((work :: works).take k) seen := by
        intro rest hfirst heq
        obtain ⟨frame, hframe, hcons⟩ := hchunk.threadRecv_cons hwork beyond rest
        rw [heq, hcons, Option.map_eq_some_iff] at hseen
        obtain ⟨seen', hseen', rfl⟩ := hseen
        obtain ⟨k, hk, hall⟩ := ih hworks hfirst hseen'
        refine ⟨k + 1, ?_, .cons hframe hall⟩
        rw [heq, hk, List.take_succ_cons, List.flatMap_cons]
      rcases List.prefix_or_prefix_of_prefix hbuf (List.prefix_append _ _) with hinside | ⟨rest, heq⟩
      · obtain ⟨more, hmore⟩ := hinside
        by_cases hend : more = []
        · rw [hend, List.append_nil] at hmore
          exact hwhole [] List.nil_prefix (by rw [List.append_nil]; exact hmore)
        · by_cases hnone : buf = []
          · rw [hnone, threadRecv, if_pos List.length_nil] at hseen
            cases hseen
            exact ⟨0, hnone, .nil⟩
          · cases (threadRecv_short hchunk hwork hnone hend hmore).symm.trans hseen
      · rw [← heq, List.prefix_append_right_inj] at hbuf
        exact hwhole rest hbuf heq.symm

end carries

/-! ### What the server makes of an answer -/

/-- The command puts something on a list. -/
def RedisCommand.isPush : RedisCommand → Bool
  | .lpush _ _ => true
  | _ => false

namespace LPushConn

/-- The acknowledgement that a frame is recorded with. -/
def recorded? (conf : LPushConfig) (frame : LPushChunk) : Option RedisCommand :=
  if frame.header.dataType = lpushHeaderTypePush ∧ found frame.data 0 ≠ [] ∧
      found frame.data (consumed frame.data 0) ≠ [] then
    some (RedisClient.lPushForList (conf.resultList ++ found frame.data (consumed frame.data 0)) (found frame.data 0))
  else none

/-- The acknowledgement of a message. -/
def acknowledgement? (conf : LPushConfig) (work : LPushWorkerMessage) : Option RedisCommand :=
  if cStr work.taskId ≠ [] ∧ cStr work.msgId ≠ [] then
    some (RedisClient.lPushForList (conf.resultList ++ cStr work.msgId) (cStr work.taskId))
  else none

/-- The acknowledgements that a connection has sent to Redis. -/
def acknowledgements (trace : List Effect) : List RedisCommand := (commands trace).filter RedisCommand.isPush

section answers

variable {conf : LPushConfig} {platform : Platform} {data t m : Bytes} {frame : LPushChunk}

/-- What the two calls of `decodeString` find in an answer. -/
theorem callbackBody_spec (hsmall : t.length + m.length < 2 ^ 31) :
    CallbackInside (callbackBody t m) ∧ found (callbackBody t m) 0 = cStr t ∧
      found (callbackBody t m) (consumed (callbackBody t m) 0) = cStr m := by
  have hfirst : Tagged ((callbackBody t m).drop 0) t (1 :: (intBytes (BitVec.ofNat 32 m.length) ++ m)) :=
    tagged_intBytes (by omega) _
  obtain ⟨htag, htext, htextAt, hsize, hbehind⟩ := hfirst.spec
  have hconsumed : consumed (callbackBody t m) 0 = 0 + (5 + t.length) := by
    rw [consumed, if_pos htag, hsize, Nat.zero_add]
  have hsecond : Tagged ((callbackBody t m).drop (0 + (5 + t.length))) m [] := by
    rw [← hbehind]
    have hlast := tagged_intBytes (t := m) (by omega) []
    rwa [List.append_nil] at hlast
  obtain ⟨htag', htext', htextAt', -, -⟩ := hsecond.spec
  rw [hconsumed]
  refine ⟨⟨⟨?_, fun _ => htext⟩, ?_⟩, ?_, ?_⟩
  · exact Nat.zero_lt_succ _
  · rw [hconsumed]
    refine ⟨?_, fun _ => htext'⟩
    rw [HoldsText] at htext'
    omega
  · rw [found, if_pos htag, htextAt]
  · rw [found, if_pos htag', htextAt']

theorem recorded?_callbackBody {work : LPushWorkerMessage} (htype : frame.header.dataType = lpushHeaderTypePush)
    (hdata : frame.data = callbackBody work.taskId work.msgId) :
    recorded? conf frame = acknowledgement? conf work := by
  have hlength := length_data_lt frame
  have hsmall : work.taskId.length + work.msgId.length < 2 ^ 31 := by
    rw [hdata] at hlength
    simp only [callbackBody, List.length_append, List.length_cons] at hlength
    omega
  obtain ⟨-, htask, hmsg⟩ := callbackBody_spec hsmall
  unfold recorded? acknowledgement?
  simp only [htype, hdata, htask, hmsg, true_and]

/-- A frame that `forwardServer` answers sends the acknowledgement that it is recorded with. -/
theorem Answers.acknowledges {names : Names} {sent : List RedisCommand} (h : Answers conf platform names frame sent)
    (hmalloc : ∀ n ≤ frame.data.length, platform.malloc n = true)
    (hinside : frame.header.dataType = lpushHeaderTypePush → CallbackInside frame.data) :
    sent.filter RedisCommand.isPush = (recorded? conf frame).toList := by
  have hother : frame.header.dataType ≠ lpushHeaderTypePush → (recorded? conf frame).toList = [] := by
    intro hne
    rw [recorded?, if_neg fun hall => hne hall.1]
    rfl
  cases h with
  | hreatbeat htype =>
      rw [hother (by rw [htype]; decide)]
      rfl
  | close htype =>
      rw [hother (by rw [htype]; decide)]
      rfl
  | other htype =>
      rw [hother htype.2.2]
      rfl
  | push beyond ret commands htype hresult =>
      rw [result_recvPushCallback conf beyond hmalloc (hinside htype)] at hresult
      unfold recorded?
      simp only [htype, true_and]
      split at hresult
      · rename_i hfound
        cases hresult
        rw [if_pos hfound]
        rfl
      · rename_i hfound
        cases hresult
        rw [if_neg hfound]
        rfl

end answers

end LPushConn

/-! ### What the client has sent -/

section talks

variable {platform : Platform} {test : LpushTest} {beyond : Nat → UInt8} {conf : LPushConfig}
  {chunks : List LPushChunk} {works : List LPushWorkerMessage} {received out : Bytes}

theorem getD_textEntry (key : String) (value : Bytes) :
    (((LPushWorkerMessage.textEntry key value).2).bind Json.asString).getD [] = value := by
  unfold LPushWorkerMessage.textEntry
  cases value with
  | nil => rfl
  | cons first rest => rfl

/-- The identifiers that the client finds are those of the message. -/
theorem Sees.identifiers {work : LPushWorkerMessage} {frame : SeenFrame} (h : Sees work frame) :
    frame.jsonValuemap.get (text "TaskId") = work.taskId ∧ frame.jsonValuemap.get (text "MsgId") = work.msgId := by
  constructor
  · rw [StringMap.get, h.members, LPushWorkerMessage.lookup_pushMembers]
    exact getD_textEntry "TaskId" work.taskId
  · rw [StringMap.get, h.members, LPushWorkerMessage.lookup_pushMembers]
    exact getD_textEntry "MsgId" work.msgId

/-- An answer is a frame with the identifiers of the message. -/
structure Answer (frame : LPushChunk) (work : LPushWorkerMessage) : Prop where
  dataType : frame.header.dataType = LPushConn.lpushHeaderTypePush
  data : frame.data = callbackBody work.taskId work.msgId
  length : frame.data.length ≤ LpushTest.answerSize
  datalenght : frame.header.datalenght.toInt = ((work.taskId.length + work.msgId.length + 10 : Nat) : Int)

theorem answer_spec {now : Int} {frame : SeenFrame} {bytes : Bytes} {work : LPushWorkerMessage}
    (h : LpushTest.answer now frame = some bytes) (hsees : Sees work frame) :
    ∃ chunk, bytes = sendPacket chunk ∧ Answer chunk work := by
  obtain ⟨htask, hmsg⟩ := hsees.identifiers
  unfold LpushTest.answer at h
  dsimp only at h
  rw [htask, hmsg, Option.ite_none_right_eq_some] at h
  obtain ⟨hfits, heq⟩ := h
  have hsize := hfits
  rw [LpushTest.answerSize] at hsize
  have hsum : work.taskId.length + 5 + work.msgId.length + 5 = work.taskId.length + work.msgId.length + 10 := by omega
  rw [hsees.dataType, hsum] at heq
  have hint : (BitVec.ofNat 32 (work.taskId.length + work.msgId.length + 10)).toInt =
      ((work.taskId.length + work.msgId.length + 10 : Nat) : Int) := toInt_ofNat (by omega)
  have hlength : (callbackBody work.taskId work.msgId).length = work.taskId.length + work.msgId.length + 10 := by
    simp only [callbackBody, intBytes, List.length_append, List.length_cons, List.length_nil]
    omega
  refine ⟨⟨⟨BitVec.ofInt 32 now, LPushConn.lpushCallbackTypePush,
    BitVec.ofNat 32 (work.taskId.length + work.msgId.length + 10)⟩, callbackBody work.taskId work.msgId, ?_⟩,
    (Option.some.inj heq).symm, rfl, rfl, ?_, hint⟩
  · rw [hlength, LPushHeader.length, hint, Int.toNat_natCast]
  · rw [hlength, LpushTest.answerSize]
    omega

theorem answers_spec {seen : List SeenFrame} {answers : List Bytes} (hsees : List.Forall₂ Sees works seen)
    (hanswers : List.Forall₂ (fun frame bytes => ∃ now, LpushTest.answer now frame = some bytes) seen answers) :
    ∃ replies, answers.flatten = replies.flatMap sendPacket ∧ List.Forall₂ Answer replies works := by
  induction hsees generalizing answers with
  | nil =>
      cases hanswers
      exact ⟨[], rfl, .nil⟩
  | cons hwork _ ih =>
      cases hanswers with
      | cons hanswer hrest =>
          obtain ⟨now, hbytes⟩ := hanswer
          obtain ⟨chunk, heq, hchunk⟩ := answer_spec hbytes hwork
          obtain ⟨replies, hflatten, hreplies⟩ := ih hrest
          refine ⟨chunk :: replies, ?_, .cons hchunk hreplies⟩
          rw [List.flatten_cons, heq, hflatten, List.flatMap_cons]

theorem answer_of_mem {replies : List LPushChunk} {frame : LPushChunk} (h : List.Forall₂ Answer replies works)
    (hframe : frame ∈ replies) : ∃ work ∈ works, Answer frame work := by
  induction h with
  | nil => exact (List.not_mem_nil hframe).elim
  | cons hanswer _ ih =>
      rcases List.mem_cons.mp hframe with rfl | hrest
      · exact ⟨_, List.mem_cons_self, hanswer⟩
      · obtain ⟨work, hwork, hfound⟩ := ih hrest
        exact ⟨work, List.mem_cons_of_mem _ hwork, hfound⟩

/-- The client has received the first `k` push frames and has sent its two opening frames and the
events: a heartbeat now and then, and an answer for each push frame. -/
structure Exchange (platform : Platform) (test : LpushTest) (conf : LPushConfig) (chunks : List LPushChunk)
    (works : List LPushWorkerMessage) (received out : Bytes) (opening events : List LPushChunk) (k : Nat) : Prop where
  received : received = (chunks.take k).flatMap sendPacket
  out : out = (opening ++ events).flatMap sendPacket
  two : opening.length = 2
  opens : ∀ frame ∈ opening, frame.header.datalenght.toInt = 1 ∨
    frame.header.datalenght.toInt = (((test.handshakeText platform).length + 5 : Nat) : Int)
  sends : ∀ frame ∈ events, (frame.header.dataType ≠ LPushConn.lpushHeaderTypePush ∧
    frame.data.length = 1 ∧ frame.header.datalenght.toInt = 1) ∨ ∃ work ∈ works, Answer frame work
  recorded : events.filterMap (LPushConn.recorded? conf) = (works.take k).filterMap (LPushConn.acknowledgement? conf)

theorem filterMap_recorded {replies : List LPushChunk} (h : List.Forall₂ Answer replies works) :
    replies.filterMap (LPushConn.recorded? conf) = works.filterMap (LPushConn.acknowledgement? conf) := by
  induction h with
  | nil => rfl
  | cons hreply _ ih =>
      rw [filterMap_cons_toList, filterMap_cons_toList, ih,
        LPushConn.recorded?_callbackBody hreply.dataType hreply.data]

/-- The first frame, as a chunk. -/
theorem sendHandshakeMessage_spec {handshake : Bytes} {now : Int}
    (h : test.sendHandshakeMessage platform now = some handshake) : ∃ chunk, handshake = sendPacket chunk ∧
      chunk.header.datalenght.toInt = (((test.handshakeText platform).length + 5 : Nat) : Int) := by
  unfold LpushTest.sendHandshakeMessage at h
  dsimp only at h
  obtain ⟨hfits, heq⟩ := Option.ite_none_right_eq_some.mp h
  rw [LpushTest.bufferSize] at hfits
  generalize test.handshakeText platform = msg at hfits heq ⊢
  have hint : (BitVec.ofNat 32 (msg.length + 5)).toInt = ((msg.length + 5 : Nat) : Int) := toInt_ofNat (by omega)
  refine ⟨⟨⟨BitVec.ofInt 32 now, 0x01, BitVec.ofNat 32 (msg.length + 5)⟩,
    0x06 :: (intBytes (BitVec.ofNat 32 msg.length) ++ msg), ?_⟩, (Option.some.inj heq).symm, hint⟩
  rw [LPushHeader.length, hint, Int.toNat_natCast]
  simp only [intBytes, List.length_append, List.length_cons, List.length_nil]
  omega

theorem exchange_opens {handshake : Bytes} {now now' : Int}
    (h : test.sendHandshakeMessage platform now = some handshake) :
    ∃ opening, Exchange platform test conf chunks works [] (handshake ++ LpushTest.sendConnectMessage now')
      opening [] 0 := by
  obtain ⟨first, hfirst, hlength⟩ := sendHandshakeMessage_spec h
  let second : LPushChunk := ⟨⟨BitVec.ofInt 32 now', 0x04, 1⟩, text "c", rfl⟩
  refine ⟨[first, second], ?_⟩
  constructor
  · rfl
  · rw [hfirst, List.append_nil, List.flatMap_cons, List.flatMap_singleton]
    rfl
  · rfl
  · intro frame hframe
    rcases List.mem_pair.mp hframe with rfl | rfl
    · exact .inr hlength
    · exact .inl rfl
  · exact fun _ hframe => (List.not_mem_nil hframe).elim
  · rfl

theorem Exchange.heart {opening events : List LPushChunk} {k : Nat}
    (h : Exchange platform test conf chunks works received out opening events k) (now : Int) :
    ∃ beat, Exchange platform test conf chunks works received (out ++ LpushTest.sendHeart now) opening
      (events ++ [beat]) k := by
  let beat : LPushChunk := ⟨⟨BitVec.ofInt 32 now, 0x05, 1⟩, [0x01], rfl⟩
  have hother : beat.header.dataType ≠ LPushConn.lpushHeaderTypePush := by
    change (0x05 : UInt8) ≠ 0x08
    decide
  refine ⟨beat, h.received, ?_, h.two, h.opens, fun frame hframe => ?_, ?_⟩
  · have hlast : LpushTest.sendHeart now = [beat].flatMap sendPacket := (List.append_nil _).symm
    rw [h.out, hlast, ← List.flatMap_append, List.append_assoc]
  · rcases List.mem_append.mp hframe with hbefore | hlast
    · exact h.sends frame hbefore
    · rw [List.mem_singleton.mp hlast]
      exact .inl ⟨hother, rfl, rfl⟩
  · have hnone : LPushConn.recorded? conf beat = none := if_neg fun hall => hother hall.1
    rw [List.filterMap_append, h.recorded, filterMap_cons_toList, hnone]
    exact List.append_nil _

/-- One more buffer that is understood. -/
theorem Exchange.recv {opening events : List LPushChunk} {k : Nat} {buf : Bytes} {seen : List SeenFrame}
    {answers : List Bytes} (h : Exchange platform test conf chunks works received out opening events k)
    (hcarries : List.Forall₂ (Carries platform) chunks works)
    (htransmissible : ∀ work ∈ works, Transmissible platform printSize work)
    (hreceived : received ++ buf <+: chunks.flatMap sendPacket)
    (hseen : threadRecv printSize platform beyond buf = some seen)
    (hanswers : List.Forall₂ (fun frame bytes => ∃ now, LpushTest.answer now frame = some bytes) seen answers) :
    ∃ replies more, Exchange platform test conf chunks works (received ++ buf) (out ++ answers.flatten) opening
      (events ++ replies) (k + more) := by
  have hbuf : buf <+: (chunks.drop k).flatMap sendPacket := by
    have hsplit : chunks.flatMap sendPacket =
        (chunks.take k).flatMap sendPacket ++ (chunks.drop k).flatMap sendPacket := by
      rw [← List.flatMap_append, List.take_append_drop]
    rwa [hsplit, h.received, List.prefix_append_right_inj] at hreceived
  obtain ⟨more, hmore, hsees⟩ := threadRecv_aligned (List.forall₂_drop k hcarries)
    (fun work hwork => htransmissible work (List.mem_of_mem_drop hwork)) hbuf hseen
  obtain ⟨replies, hflatten, hreplies⟩ := answers_spec hsees hanswers
  refine ⟨replies, more, ?_, ?_, h.two, h.opens, fun frame hframe => ?_, ?_⟩
  · rw [h.received, hmore, ← List.flatMap_append, ← List.take_add]
  · rw [h.out, hflatten, ← List.flatMap_append, List.append_assoc]
  · rcases List.mem_append.mp hframe with hbefore | hnow
    · exact h.sends frame hbefore
    · obtain ⟨work, hwork, hanswer⟩ := answer_of_mem hreplies hnow
      exact .inr ⟨work, List.mem_of_mem_drop (List.mem_of_mem_take hwork), hanswer⟩
  · rw [List.filterMap_append, h.recorded, filterMap_recorded hreplies, ← List.filterMap_append, ← List.take_add]

/-- Frames of the client stay inside their buffers. -/
theorem Exchange.inside {opening events : List LPushChunk} {k : Nat}
    (h : Exchange platform test conf chunks works received out opening events k) {frame : LPushChunk}
    (hframe : frame ∈ events) : frame.data.length ≤ LpushTest.answerSize ∧
      (frame.header.dataType = LPushConn.lpushHeaderTypePush → CallbackInside frame.data) := by
  rcases h.sends frame hframe with ⟨hother, hone, -⟩ | ⟨work, -, hanswer⟩
  · refine ⟨?_, fun htype => (hother htype).elim⟩
    rw [hone, LpushTest.answerSize]
    omega
  · refine ⟨hanswer.length, fun _ => ?_⟩
    have hlength := hanswer.length
    rw [hanswer.data] at hlength ⊢
    simp only [callbackBody, List.length_append, List.length_cons, LpushTest.answerSize] at hlength
    exact (LPushConn.callbackBody_spec (by omega)).1

/-- None of the frames is too long. -/
theorem Exchange.frames_out {opening events : List LPushChunk} {k : Nat}
    (h : Exchange platform test conf chunks works received out opening events k)
    (hhandshake : (test.handshakeText platform).length ≤ 395)
    (hshort : ∀ work ∈ works, work.taskId.length + work.msgId.length ≤ 390) : frames out = opening ++ events := by
  have hmax : lpushHandshakeDataMax = 400 := rfl
  rw [h.out]
  apply frames_flatMap
  intro frame hframe
  rcases List.mem_append.mp hframe with hopening | hevent
  · have hlength := h.opens frame hopening
    omega
  · rcases h.sends frame hevent with ⟨-, -, hone⟩ | ⟨work, hwork, hanswer⟩
    · omega
    · have hlength := hanswer.datalenght
      have hids := hshort work hwork
      omega

/-- A client that has received all push frames has seen all of them. -/
theorem Exchange.take_eq {opening events : List LPushChunk} {k : Nat}
    (h : Exchange platform test conf chunks works received out opening events k)
    (hcarries : List.Forall₂ (Carries platform) chunks works) (hall : received = chunks.flatMap sendPacket) :
    works.take k = works := by
  apply List.take_of_length_le
  rw [← hcarries.length_eq]
  have hsplit : chunks.flatMap sendPacket =
      (chunks.take k).flatMap sendPacket ++ (chunks.drop k).flatMap sendPacket := by
    rw [← List.flatMap_append, List.take_append_drop]
  have hnothing : (chunks.drop k).flatMap sendPacket = [] := by
    rw [h.received] at hall
    exact List.self_eq_append_right.mp (hall.trans hsplit)
  rw [← List.drop_eq_nil_iff]
  cases hdrop : chunks.drop k with
  | nil => rfl
  | cons chunk rest =>
      rw [hdrop, List.flatMap_cons] at hnothing
      cases (List.append_eq_nil_iff.mp hnothing).1

theorem LpushTest.Talks.exchange (h : LpushTest.Talks platform test beyond received out)
    (hcarries : List.Forall₂ (Carries platform) chunks works)
    (htransmissible : ∀ work ∈ works, Transmissible platform printSize work)
    (hreceived : received <+: chunks.flatMap sendPacket) :
    ∃ opening events k, Exchange platform test conf chunks works received out opening events k := by
  induction h with
  | opens now now' h =>
      obtain ⟨opening, hopening⟩ := exchange_opens h
      exact ⟨opening, [], 0, hopening⟩
  | heart now before ih =>
      obtain ⟨opening, events, k, hexchange⟩ := ih hreceived
      obtain ⟨beat, hbeat⟩ := hexchange.heart now
      exact ⟨opening, _, k, hbeat⟩
  | recv buf seen answers before hseen hanswers ih =>
      obtain ⟨opening, events, k, hexchange⟩ := ih ((List.prefix_append _ buf).trans hreceived)
      obtain ⟨replies, more, hreplies⟩ := hexchange.recv hcarries htransmissible hreceived hseen hanswers
      exact ⟨opening, _, _, hreplies⟩

end talks

/-! ### What the server has offered -/

/-- A push frame that was written, or began to be, with its message. -/
def Effect.offered? : Effect → Option (LPushWorkerMessage × LPushChunk)
  | .wrote chunk _ (some work) => some (work, chunk)
  | _ => none

/-- The push frames of a connection, the one being written included. -/
def LPushConn.offered (trace : List Effect) (c : LPushConn) : List (LPushWorkerMessage × LPushChunk) :=
  trace.filterMap Effect.offered? ++ c.pushing.toList

section offered

variable {platform : Platform} {trace : List Effect} {c : LPushConn} {work : LPushWorkerMessage} {chunk : LPushChunk}

theorem LPushConn.Builds.carries (h : LPushConn.Builds platform (c, trace))
    (htransmissible : ∀ push ∈ c.offered trace, Transmissible platform printSize push.1) :
    List.Forall₂ (Carries platform) ((c.offered trace).map Prod.snd) ((c.offered trace).map Prod.fst) := by
  rw [List.forall₂_map_left_iff, List.forall₂_map_right_iff, List.forall₂_same]
  intro push hpush
  refine Built.carries ?_ (htransmissible push hpush)
  rcases List.mem_append.mp hpush with hwritten | hwriting
  · obtain ⟨e, he, hoffered⟩ := List.mem_filterMap.mp hwritten
    have hbuilt := h.effects e he
    cases e with
    | wrote chunk ok work =>
        cases work with
        | none => cases hoffered
        | some work =>
            cases hoffered
            exact hbuilt
    | _ => cases hoffered
  · obtain ⟨work, chunk⟩ := push
    obtain ⟨u, hu, hpoint⟩ := LPushConn.pushing_eq_some (Option.mem_toList.mp hwriting)
    exact h.drafts.consum u hu work chunk hpoint

end offered

namespace Server

section loop

variable {setup : Setup} {tasks : List Bytes} {trace : List Observation} {s : Server} {id : Nat} {c : LPushConn}
  {test : LpushTest} {beyond : Nat → UInt8} {received out : Bytes}

/-- The entries of a connection acknowledge what the frames they answer are recorded with. -/
theorem acknowledgements_entries {names : Names}
    (hmalloc : ∀ n ≤ LpushTest.answerSize, setup.platform.malloc n = true)
    {entries : List LPushConn.Entry} (hsound : ∀ entry ∈ entries, entry.Sound setup.conf setup.platform names)
    (hframes : ∀ frame ∈ entries.filterMap LPushConn.Entry.frame?, frame.data.length ≤ LpushTest.answerSize ∧
      (frame.header.dataType = LPushConn.lpushHeaderTypePush → CallbackInside frame.data)) :
    (entries.flatMap (LPushConn.Entry.commands names)).filter RedisCommand.isPush =
      (entries.filterMap LPushConn.Entry.frame?).filterMap (LPushConn.recorded? setup.conf) := by
  induction entries with
  | nil => rfl
  | cons entry entries ih =>
      obtain ⟨hentry, hrest⟩ := List.forall_mem_cons.mp hsound
      rw [List.flatMap_cons, List.filter_append]
      cases entry with
      | disposed => exact ih hrest hframes
      | answered frame sent =>
          have hcons : (LPushConn.Entry.answered frame sent :: entries).filterMap LPushConn.Entry.frame? =
              frame :: entries.filterMap LPushConn.Entry.frame? := rfl
          rw [hcons] at hframes ⊢
          obtain ⟨⟨hlength, hinside⟩, hothers⟩ := List.forall_mem_cons.mp hframes
          have hsent := LPushConn.Answers.acknowledges hentry (fun n hn => hmalloc n (hn.trans hlength)) hinside
          rw [filterMap_cons_toList, ih hrest hothers, ← hsent]
          rfl

/-- The acknowledgements are those of the frames handed on. -/
theorem Reached.acknowledges (hrun : Reached setup tasks trace s) (hc : s.conns id = some c)
    (hmalloc : ∀ n ≤ LpushTest.answerSize, setup.platform.malloc n = true)
    (hframes : ∀ frame ∈ handed (view id trace), frame.data.length ≤ LpushTest.answerSize ∧
      (frame.header.dataType = LPushConn.lpushHeaderTypePush → CallbackInside frame.data)) :
    ∃ answered unanswered, handed (view id trace) = answered ++ unanswered ∧
      (c.crashed = false → unanswered = []) ∧
      LPushConn.acknowledgements (view id trace) = answered.filterMap (LPushConn.recorded? setup.conf) := by
  cases hrun.reasoned hc with
  | silent _ hcommands hhanded =>
      refine ⟨[], [], hhanded, fun _ => rfl, ?_⟩
      rw [LPushConn.acknowledgements, hcommands]
      rfl
  | announced msg utime entries unanswered _ _ hcommands hhanded hanswered hsound =>
      refine ⟨_, unanswered, hhanded, hanswered, ?_⟩
      rw [hhanded] at hframes
      rw [LPushConn.acknowledgements, hcommands, List.filter_append, acknowledgements_entries hmalloc hsound
        fun frame hframe => hframes frame (List.mem_append_left _ hframe)]
      rfl

/-- **The loop of acknowledgements.** A client that reads and answers as the client of the tests does
has each message acknowledged at most once and in the order in which they were sent, and nothing else:
what the connection puts on the lists of results are the acknowledgements of the first messages it has
sent. Where the client has received them all, all its frames have been handed on, and none of them was
too long, each message that names itself is acknowledged. -/
theorem acknowledged_in_order (hrun : Reached setup tasks trace s) (hc : s.conns id = some c)
    (hmalloc : ∀ n ≤ LpushTest.answerSize, setup.platform.malloc n = true)
    (htransmissible : ∀ push ∈ c.offered (view id trace), Transmissible setup.platform printSize push.1)
    (htalks : test.Talks setup.platform beyond received out)
    (hreceived : received <+: ((c.offered (view id trace)).map Prod.snd).flatMap sendPacket)
    (hstream : stream (view id trace) <+: out) :
    LPushConn.acknowledgements (view id trace) <+:
        ((c.offered (view id trace)).map Prod.fst).filterMap (LPushConn.acknowledgement? setup.conf) ∧
      (received = ((c.offered (view id trace)).map Prod.snd).flatMap sendPacket →
        handed (view id trace) = (frames out).drop 2 → c.crashed = false →
        (test.handshakeText setup.platform).length ≤ 395 →
        (∀ push ∈ c.offered (view id trace), push.1.taskId.length + push.1.msgId.length ≤ 390) →
        LPushConn.acknowledgements (view id trace) =
          ((c.offered (view id trace)).map Prod.fst).filterMap (LPushConn.acknowledgement? setup.conf)) := by
  have hworks : ∀ work ∈ (c.offered (view id trace)).map Prod.fst, Transmissible setup.platform printSize work :=
    List.forall_mem_map.mpr htransmissible
  have hcarries := (LPushConn.history_builds (fun _ henv => henv.2.1) (hrun.history hc)).carries htransmissible
  have htalked : ∃ opening events k, Exchange setup.platform test setup.conf _ _ received out opening events k :=
    htalks.exchange hcarries hworks hreceived
  obtain ⟨opening, events, k, hexchange⟩ := htalked
  obtain ⟨hproper, -⟩ := LPushConn.history_proper (hrun.history hc)
  have hdrop : (opening ++ events).drop 2 = events := List.drop_left' hexchange.two
  have hevents : handed (view id trace) <+: events := by
    obtain ⟨rest, hrest⟩ := hstream
    have hframes := hproper.prefix_handed.trans ((hproper.prefix_taken rest).drop 2)
    have hsent := (frames_flatMap_isPrefix (opening ++ events)).drop 2
    rw [← hexchange.out, hdrop] at hsent
    rw [hrest] at hframes
    exact hframes.trans hsent
  obtain ⟨answered, unanswered, hhanded, hanswered, hacknowledged⟩ :=
    hrun.acknowledges hc hmalloc fun frame hframe => hexchange.inside (hevents.subset hframe)
  rw [hacknowledged]
  constructor
  · have hfirst : answered <+: events := by
      rw [hhanded] at hevents
      exact (List.prefix_append answered unanswered).trans hevents
    have hrecorded := hfirst.filterMap (LPushConn.recorded? setup.conf)
    rw [hexchange.recorded] at hrecorded
    exact hrecorded.trans ((List.take_prefix k _).filterMap _)
  · intro hall hread hrunning hhandshake hshort
    have hframes := hexchange.frames_out hhandshake (List.forall_mem_map.mpr hshort)
    rw [hanswered hrunning, List.append_nil] at hhanded
    rw [hframes, hdrop, hhanded] at hread
    rw [hread, hexchange.recorded, hexchange.take_eq hcarries hall]

end loop

/-! ### A client of user 7 -/

def clientSeven : LpushTest := ⟨text "7", text "app", text "key", text "1", text "1", text "1"⟩

/-- What jsoncpp prints for the first message of the client. -/
def clientStyled : Visitor where
  json := text "\x7b\n   \"appId\" : \"app\",\n   \"clientFlag\" : \"1\",\n   \"devices\" : \"1\",\n" ++
    text "   \"identity\" : \"1\",\n   \"md5Data\" : \"ddd212570390b56182dadde08c0dee32\",\n" ++
    text "   \"screteKey\" : \"key\",\n   \"userId\" : \"7\"\n\x7d\n"
  short := by decide +kernel
  members :=
    [(text "appId", text "app"), (text "clientFlag", text "1"), (text "devices", text "1"),
      (text "identity", text "1"), (text "md5Data", text "ddd212570390b56182dadde08c0dee32"),
      (text "screteKey", text "key"), (text "userId", text "7")]
  src := text "7appkey"
  digest := userDigest

/-- The system of the task, on which jsoncpp also knows what the client sends. -/
def clientPlatform : Platform :=
  { visitorPlatform [clientStyled] with
    reader := fun source =>
      if source = taskJson then some (.object taskMembers)
      else if source = taskStyled then some taskMessage.pushJson
      else (visitorPlatform [clientStyled]).reader source
    writer := fun json =>
      if (json.members.bind fun members => members.lookup (text "userId")).isSome then clientStyled.json
      else taskStyled }

def clientSetup : Setup := ⟨bareConfig, clientPlatform, knownHashes⟩

/-- The frames of the client. -/
def clientFrames : List LPushChunk :=
  [⟨⟨0, 0x01, 186⟩, 0x06 :: (intBytes 181 ++ clientStyled.json), by decide +kernel⟩, ⟨⟨0, 0x04, 1⟩, text "c", rfl⟩,
    ⟨⟨0, LPushConn.lpushHeaderTypePush, 12⟩, callbackBody (text "t") (text "m"), by decide⟩]

/-- The task is written to the client, and the client answers it. -/
def answersOnce : List Move :=
  enters 0 7 1 ((clientFrames.take 2).flatMap sendPacket) ++ activates 0 1 2 ++
    [.rpush taskJson, .lrange, .ltrim, .thread 0 .consum (calm 2), .thread 0 .consum (calm 2),
      .thread 0 .recv { calm 2 with delivery := .ok ((clientFrames.drop 2).flatMap sendPacket) }]

theorem toJsonString_client : taskMessage.toJsonString clientPlatform = taskStyled := by decide +kernel

theorem transmissible_client : Transmissible clientPlatform printSize taskMessage := by
  constructor
  · rw [toJsonString_client]
    decide
  · rw [toJsonString_client]
    decide
  · rw [toJsonString_client]
    rfl
  · have hother : taskStyled ≠ taskJson := by decide
    have hreader : clientPlatform.reader (clientPlatform.writer taskMessage.pushJson) = some taskMessage.pushJson := by
      rw [← LPushWorkerMessage.toJsonString_eq, toJsonString_client]
      simp [clientPlatform, hother]
    exact ⟨_, hreader, Json.readBack_self members_pushJson_taskMessage (by decide)⟩

theorem opens_clientSeven : clientSeven.sendHandshakeMessage clientPlatform 0 =
    some ((clientFrames.take 1).flatMap sendPacket) := by decide +kernel

/-- The one message of the client is acknowledged. -/
theorem acknowledged_in_order_answersOnce : ∃ trace s c, Reached clientSetup [] trace s ∧ s.conns 0 = some c ∧
    (c.offered (view 0 trace)).map Prod.fst = [taskMessage] ∧
      LPushConn.acknowledgements (view 0 trace) =
        [taskMessage].filterMap (LPushConn.acknowledgement? bareConfig) := by
  obtain ⟨trace, s, hrun, hwanted⟩ := reached_of_play clientSetup [] answersOnce
    (fun next => ((next.1.conns 0).any fun c => (!c.crashed) &&
      (c.offered (view 0 next.2)).map Prod.fst == [taskMessage]) &&
      stream (view 0 next.2) == clientFrames.flatMap sendPacket && (handed (view 0 next.2)).length == 1)
    (by decide +kernel)
  obtain ⟨hboth, hhanded⟩ := Bool.and_eq_true_iff.mp hwanted
  obtain ⟨hany, hstream⟩ := Bool.and_eq_true_iff.mp hboth
  obtain ⟨c, hc, hconn⟩ := (Option.any_eq_true _ _).mp hany
  obtain ⟨hrunning, hoffered⟩ := Bool.and_eq_true_iff.mp hconn
  have hone : (c.offered (view 0 trace)).map Prod.fst = [taskMessage] := beq_iff_eq.mp hoffered
  have hstream : stream (view 0 trace) = clientFrames.flatMap sendPacket := beq_iff_eq.mp hstream
  have htransmissible : ∀ push ∈ c.offered (view 0 trace), Transmissible clientPlatform printSize push.1 := by
    rw [← List.forall_mem_map (f := Prod.fst) (P := Transmissible clientPlatform printSize), hone]
    exact List.forall_mem_singleton.mpr transmissible_client
  have hcarries := (LPushConn.history_builds (fun _ henv => henv.2.1) (hrun.history hc)).carries htransmissible
  -- the client receives the push frame and answers it
  obtain ⟨seen, hseen, hsees⟩ := threadRecv_flatMap hcarries (List.forall_mem_map.mpr htransmissible) fun _ => 0
  rw [hone] at hsees
  obtain ⟨frame, rest, hframe, hrest, rfl⟩ := List.forall₂_cons_left_iff.mp hsees
  obtain rfl := List.forall₂_nil_left_iff.mp hrest
  have hanswer : LpushTest.answer 0 frame = some ((clientFrames.drop 2).flatMap sendPacket) := by
    obtain ⟨htask, hmsg⟩ := hframe.identifiers
    simp only [LpushTest.answer, htask, hmsg, hframe.dataType]
    rfl
  have htalks : clientSeven.Talks clientPlatform (fun _ => 0) _ _ :=
    .recv _ [frame] [_] (.opens 0 0 opens_clientSeven) hseen (.cons ⟨0, hanswer⟩ .nil)
  have hsent : (clientFrames.take 1).flatMap sendPacket ++ LpushTest.sendConnectMessage 0 ++
      [(clientFrames.drop 2).flatMap sendPacket].flatten = clientFrames.flatMap sendPacket := by
    decide +kernel
  rw [hsent, List.nil_append] at htalks
  -- and its three frames have been handed on
  have hframes : frames (clientFrames.flatMap sendPacket) = clientFrames := frames_flatMap (by decide +kernel)
  obtain ⟨hproper, -⟩ := LPushConn.history_proper (hrun.history hc)
  have hread : handed (view 0 trace) = (frames (clientFrames.flatMap sendPacket)).drop 2 := by
    have hfirst := hproper.prefix_handed.trans ((hproper.prefix_taken []).drop 2)
    rw [hstream, List.append_nil] at hfirst
    refine hfirst.eq_of_length ?_
    rw [hframes, beq_iff_eq.mp hhanded]
    rfl
  have hmalloc : ∀ n ≤ LpushTest.answerSize, clientPlatform.malloc n = true := by
    intro n hn
    have hsmall : n < 2 ^ 47 := by
      rw [LpushTest.answerSize] at hn
      omega
    exact decide_eq_true hsmall
  have hall := (acknowledged_in_order hrun hc hmalloc htransmissible htalks List.prefix_rfl
    (by rw [hstream])).2 rfl hread (Bool.not_eq_true' _ ▸ hrunning) (by decide +kernel) fun push hpush => by
      have hmem : push.1 ∈ [taskMessage] := hone ▸ List.mem_map_of_mem hpush
      rw [List.mem_singleton.mp hmem]
      decide
  rw [hone] at hall
  exact ⟨trace, s, c, hrun, hc, hone, hall⟩

end Server

end LinkedonPush
