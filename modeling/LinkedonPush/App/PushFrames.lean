import LinkedonPush.App.LPushConn
import LinkedonPush.App.Serialisation

/-!
# Push frames on the client

`sendForward` puts a JSON text with its length into a frame with a length of its own. The receiver
is `thread_recv` of the test client: it walks the received bytes by the outer length, copies each text
into an array to print it, and decodes each body with `decodeJson`.
-/

namespace LinkedonPush

open Theory Json LPushFMT LPushProtocol

/-! ### The receiver -/

/-- `print_message` with an array of the given size: the header, and the body length the caller goes on
with. `none` where the text and the NUL behind it run out of the array; a length below 5 wraps around. -/
def printMessage (size : Nat) : Bytes → Option (LPushHeader × Int)
  | _ :: _ :: _ :: _ :: _ :: t0 :: t1 :: t2 :: t3 :: dataType :: l0 :: l1 :: l2 :: l3 :: _ =>
      let header : LPushHeader := ⟨assembleInt t0 t1 t2 t3, dataType, assembleInt l0 l1 l2 l3⟩
      if dataType = 0x07 ∨ dataType = 0x08 then
        if (header.datalenght - 5).toNat < size then some (header, header.datalenght.toInt) else none
      else some (header, 0)
  | _ => none

/-- What the receiver sees of one frame: the header, and what `decodeJson` returned. -/
structure SeenFrame where
  header : LPushHeader
  ret : Int
  jsonValuemap : StringMap

/-- The frames of the received bytes; `none` where a frame does not end inside them, which has `memmove`
called with a negative length, or where printing or decoding dies. `beyond` is the memory behind them. -/
def threadRecv (size : Nat) (platform : Platform) (beyond : Nat → UInt8) (buf : Bytes) :
    Option (List SeenFrame) :=
  if buf.length = 0 then some []
  else
    match printMessage size buf with
    | none => none
    | some (header, k) =>
        match (decodeJson platform (bodyMemory (buf.drop 14) beyond) 0).result with
        | none => none
        | some (ret, jsonValuemap) =>
            if _hrest : 0 < k + 14 ∧ k + 14 ≤ buf.length then
              (threadRecv size platform beyond (buf.drop (k + 14).toNat)).map (⟨header, ret, jsonValuemap⟩ :: ·)
            else none
termination_by buf.length
decreasing_by
  rw [List.length_drop]
  omega

namespace LPushWorkerMessage

/-! ### What `toJsonString` writes -/

def pushEntries (message : LPushWorkerMessage) : List (Bytes × Option Json) :=
  [textEntry "TaskId" message.taskId, textEntry "MsgId" message.msgId,
    textEntry "Title" message.title, textEntry "Content" message.content,
    textEntry "Ext" message.ext, timeEntry "CreateTime" message.createTime,
    timeEntry "ExpiresTime" message.expiresTime]

/-- The value that `toJsonString` prints. -/
def pushJson (message : LPushWorkerMessage) : Json := Json.null.withMembers message.pushEntries

theorem toJsonString_eq (platform : Platform) (message : LPushWorkerMessage) :
    message.toJsonString platform = platform.writer message.pushJson := by
  simp only [toJsonString, member_eq_withMembers, timeMember_eq_withMembers]
  rfl

/-- Its members with their values as text. -/
def pushMembers (message : LPushWorkerMessage) : StringMap :=
  message.pushEntries.filterMap fun (key, value) =>
    (value.bind Json.asString).map fun value => (key, value)

theorem nodup_pushEntries (message : LPushWorkerMessage) :
    (message.pushEntries.map Prod.fst).Nodup := by
  have hkeys : message.pushEntries.map Prod.fst =
      ["TaskId", "MsgId", "Title", "Content", "Ext", "CreateTime", "ExpiresTime"].map text := rfl
  rw [hkeys]
  decide

theorem isSome_asString_textEntry {key : String} {value : Bytes} {written : Json}
    (h : (textEntry key value).2 = some written) : written.asString.isSome = true := by
  unfold textEntry at h
  split at h
  · cases h
  · cases h
    rfl

theorem isSome_asString_timeEntry {key : String} {value : Int} {written : Json}
    (h : (timeEntry key value).2 = some written) : written.asString.isSome = true := by
  unfold timeEntry at h
  split at h
  · cases h
  · cases h
    rfl

theorem isSome_asString_pushEntries (message : LPushWorkerMessage) : ∀ entry ∈ message.pushEntries,
    ∀ written, entry.2 = some written → written.asString.isSome = true := by
  simp only [pushEntries, List.forall_mem_cons]
  exact ⟨fun _ => isSome_asString_textEntry, fun _ => isSome_asString_textEntry,
    fun _ => isSome_asString_textEntry, fun _ => isSome_asString_textEntry,
    fun _ => isSome_asString_textEntry, fun _ => isSome_asString_timeEntry,
    fun _ => isSome_asString_timeEntry, fun _ h => (List.not_mem_nil h).elim⟩

theorem lookup_pushMembers (message : LPushWorkerMessage) (key : Bytes) :
    message.pushMembers.lookup key = ((message.pushEntries.lookup key).join).bind Json.asString := by
  have hlookup := lookup_filterMap (fun value : Option Json => value.bind Json.asString)
    (nodup_pushEntries message) key
  apply hlookup.trans
  cases message.pushEntries.lookup key <;> rfl

end LPushWorkerMessage

/-! ### Decoding one body -/

section

variable {platform : Platform} {root json : Json}

/-- The text `sendForward` sent is decoded into the members that were written. -/
theorem stringMembers_of_readBack {message : LPushWorkerMessage}
    (hroot : ReadBack root message.pushJson) :
    ∃ parms, stringMembers root = some parms ∧
      ∀ key, parms.lookup key = message.pushMembers.lookup key := by
  obtain ⟨parms, hparms, hlookup⟩ := stringMembers_of_withMembers (LPushWorkerMessage.nodup_pushEntries message)
    (LPushWorkerMessage.isSome_asString_pushEntries message) hroot
  refine ⟨parms, hparms, fun key => ?_⟩
  rw [hlookup, LPushWorkerMessage.lookup_pushMembers]

/-- `sendForward` succeeds on every text whose frame length is an `int`. -/
theorem sendForward_spec (now : Int) {message : LPushWorkerMessage}
    (hlength : (message.toJsonString platform).length < 2 ^ 31 - 5) :
    ∃ chunk, LPushConn.sendForward platform now message = some chunk ∧
      chunk.header = ⟨BitVec.ofInt 32 now, LPushConn.lpushCallbackTypePush,
        BitVec.ofNat 32 ((message.toJsonString platform).length + 5)⟩ ∧
      chunk.data = jsonBody (message.toJsonString platform) := by
  have hsize : (jsonBody (message.toJsonString platform)).length =
      LPushHeader.length ⟨BitVec.ofInt 32 now, LPushConn.lpushCallbackTypePush,
        BitVec.ofNat 32 ((message.toJsonString platform).length + 5)⟩ := by
    rw [LPushHeader.length, toInt_ofNat (by omega), Int.toNat_natCast]
    rfl
  refine ⟨_, LPushChunk.setData_eq_some hsize.ge, rfl, ?_⟩
  exact List.take_of_length_le hsize.le

/-- `print_message` takes a push frame whose text fits its array. -/
theorem printMessage_sendPacket {chunk : LPushChunk} {json : Bytes} {size : Nat}
    (htype : chunk.header.dataType = LPushConn.lpushCallbackTypePush)
    (hlenght : chunk.header.datalenght = BitVec.ofNat 32 (json.length + 5))
    (hlength : json.length < 2 ^ 31 - 5) (hsize : json.length < size) (rest : Bytes) :
    printMessage size (sendPacket chunk ++ rest) = some (chunk.header, chunk.header.datalenght.toInt) := by
  obtain ⟨⟨timestamp, dataType, datalenght⟩, data, hlen⟩ := chunk
  dsimp only at htype hlenght
  subst htype
  have hcopied : (datalenght - 5).toNat = json.length := by
    rw [hlenght, BitVec.toNat_sub, BitVec.toNat_ofNat]
    change (2 ^ 32 - 5 + (json.length + 5) % 2 ^ 32) % 2 ^ 32 = json.length
    omega
  simp only [sendPacket, headerBytes, List.cons_append, List.nil_append, printMessage, assembleInt_byteAt]
  have hpush : LPushConn.lpushCallbackTypePush = 0x07 ∨ LPushConn.lpushCallbackTypePush = 0x08 := .inr rfl
  rw [if_pos hpush, hcopied, if_pos hsize]

/-- The receiver takes one push frame and goes on behind it. -/
theorem threadRecv_cons {chunk : LPushChunk} {json : Bytes} {parms : StringMap} {size : Nat}
    (htype : chunk.header.dataType = LPushConn.lpushCallbackTypePush)
    (hlenght : chunk.header.datalenght = BitVec.ofNat 32 (json.length + 5))
    (hdata : chunk.data = jsonBody json) (hlength : json.length < 2 ^ 31 - 5) (hsize : json.length < size)
    (hmalloc : platform.malloc json.length = true) (hreader : platform.reader json = some root)
    (hmembers : stringMembers root = some parms) (beyond : Nat → UInt8) (rest : Bytes) :
    threadRecv size platform beyond (sendPacket chunk ++ rest) =
      (threadRecv size platform beyond rest).map
        (⟨chunk.header, chunk.header.datalenght.toInt, parms⟩ :: ·) := by
  have hint : chunk.header.datalenght.toInt = ((json.length + 5 : Nat) : Int) := by
    rw [hlenght, toInt_ofNat (by omega)]
  have hprint := printMessage_sendPacket htype hlenght hlength hsize rest
  have hbody : (sendPacket chunk ++ rest).drop 14 = jsonBody json ++ rest := by
    rw [← hdata]
    rfl
  have hsent : (sendPacket chunk).length = 14 + (json.length + 5) := by
    rw [length_sendPacket, LPushHeader.length, hint, Int.toNat_natCast]
  have hlong : (sendPacket chunk ++ rest).length ≠ 0 := by
    rw [List.length_append]
    omega
  rw [threadRecv, if_neg hlong, hprint, hbody]
  dsimp only
  rw [result_decodeJson_jsonBody hlength hmalloc hreader hmembers rest]
  dsimp only
  have hrest : 0 < chunk.header.datalenght.toInt + 14 ∧
      chunk.header.datalenght.toInt + 14 ≤ (sendPacket chunk ++ rest).length := by
    rw [hint, List.length_append, hsent]
    omega
  have hnext : (sendPacket chunk ++ rest).drop (chunk.header.datalenght.toInt + 14).toNat = rest := by
    apply List.drop_left'
    rw [hsent, hint]
    omega
  rw [dif_pos hrest, hnext, ← hlenght]

end

/-- **Push frames.** The frames that `sendForward` writes back to back are seen by a receiver whose array
takes every text one by one, up to the exact end of the bytes: `decodeJson` returns each header's length
and a map of exactly the members that `toJsonString` wrote. -/
theorem threadRecv_sendForward (platform : Platform) (messages : List (Int × LPushWorkerMessage))
    (beyond : Nat → UInt8)
    (hlength : ∀ message ∈ messages, (message.2.toJsonString platform).length < 2 ^ 31 - 5)
    (hmalloc : ∀ message ∈ messages,
      platform.malloc (message.2.toJsonString platform).length = true)
    (hreader : ∀ message ∈ messages, platform.ReadsBack message.2.pushJson) :
    ∃ chunks frames,
      messages.mapM (fun message => LPushConn.sendForward platform message.1 message.2) = some chunks ∧
        threadRecv (2 ^ 31) platform beyond (chunks.flatMap sendPacket) = some frames ∧
        List.Forall₂ (fun chunk frame => frame.header = chunk.header ∧
          frame.ret = chunk.header.datalenght.toInt) chunks frames ∧
        List.Forall₂ (fun message frame => ∀ key,
          frame.jsonValuemap.lookup key = message.2.pushMembers.lookup key) messages frames := by
  induction messages with
  | nil =>
      refine ⟨[], [], rfl, ?_, .nil, .nil⟩
      rw [List.flatMap_nil, threadRecv]
      rfl
  | cons message messages ih =>
      rw [List.forall_mem_cons] at hlength hmalloc hreader
      obtain ⟨chunks, frames, hchunks, hframes, hheaders, hmaps⟩ := ih hlength.2 hmalloc.2 hreader.2
      obtain ⟨root, hroot, hback⟩ := hreader.1
      rw [← LPushWorkerMessage.toJsonString_eq] at hroot
      have hsize : (message.2.toJsonString platform).length < 2 ^ 31 := by omega
      obtain ⟨parms, hparms, hlookup⟩ := stringMembers_of_readBack hback
      obtain ⟨chunk, hchunk, hheader, hdata⟩ := sendForward_spec message.1 hlength.1
      have htype : chunk.header.dataType = LPushConn.lpushCallbackTypePush := by rw [hheader]
      have hlenght := congrArg LPushHeader.datalenght hheader
      refine ⟨chunk :: chunks, ⟨chunk.header, chunk.header.datalenght.toInt, parms⟩ :: frames, ?_, ?_,
        .cons ⟨rfl, rfl⟩ hheaders, .cons hlookup hmaps⟩
      · rw [List.mapM_cons, hchunk, hchunks]
        rfl
      · rw [List.flatMap_cons, threadRecv_cons htype hlenght hdata hlength.1 hsize hmalloc.1 hroot hparms,
          hframes]
        rfl

/-- What the push frame of a task carries. -/
def pushText : Bytes :=
  text "\x7b\n   \"CreateTime\" : 1500000000,\n   \"ExpiresTime\" : 10,\n" ++
    text "   \"TaskId\" : \"t\"\n\x7d\n"

def pushPlatform : Platform := textPlatform pushText (LPushWorkerMessage.task 1500000000).pushJson

theorem members_pushJson_task : (LPushWorkerMessage.task 1500000000).pushJson.members = some [
    (text "CreateTime", .int 1500000000), (text "ExpiresTime", .int 10),
    (text "TaskId", .string (text "t"))] := rfl

/-- A task that is pushed twice. -/
def pushedTwice : List (Int × LPushWorkerMessage) :=
  [(1500000000, .task 1500000000), (1500000001, .task 1500000000)]

theorem threadRecv_sendForward_task : ∃ chunks frames,
    pushedTwice.mapM (fun message => LPushConn.sendForward pushPlatform message.1 message.2) =
        some chunks ∧
      threadRecv (2 ^ 31) pushPlatform (fun _ => 0) (chunks.flatMap sendPacket) = some frames ∧
      List.Forall₂ (fun chunk frame => frame.header = chunk.header ∧
        frame.ret = chunk.header.datalenght.toInt) chunks frames ∧
      List.Forall₂ (fun message frame => ∀ key,
        frame.jsonValuemap.lookup key = message.2.pushMembers.lookup key) pushedTwice frames := by
  have hboth : ∀ message ∈ pushedTwice, message.2 = .task 1500000000 := by
    simp [pushedTwice]
  apply threadRecv_sendForward pushPlatform pushedTwice
  · intro message hmessage
    rw [hboth message hmessage]
    decide
  · intro message hmessage
    rw [hboth message hmessage]
    decide
  · intro message hmessage
    rw [hboth message hmessage]
    exact ⟨_, rfl, readBack_self members_pushJson_task (by decide)⟩

end LinkedonPush
