import LinkedonPush.Protocol.Framing

/-!
# Receiving a whole stream

One `LPushProtocol` reads a finite stream by successive calls of `readMessage`. The socket cuts the
stream into reads of any sizes and fails once it is exhausted. The results are a function of the
stream alone.
-/

namespace LinkedonPush

open Theory LPushProtocol

/-- The bytes no call has consumed yet, in the buffer or still in the socket. -/
def unread (b : LPushFastBuffer) (feed : Reading.Feed UInt8) : Bytes := b.data ++ feed.rest

/-- The results of `n` calls of `readMessage`, each with the number of bytes it consumed; `none` is
a failed assertion. -/
def readMessages (eof : SocketError) :
    Nat → LPushFastBuffer → Reading.Feed UInt8 → Option (List (Int × LPushChunk × Nat))
  | 0, _, _ => some []
  | n + 1, b, feed =>
      match (readMessage b).run eof feed with
      | none => none
      | some ((ret, chunk, b'), feed') =>
          (readMessages eof n b' feed').map
            ((ret, chunk, (unread b feed).length - (unread b' feed').length) :: ·)

/-- The chunks that calls of `readMessage` return before the first error, and that error; `none` if
`n` calls see no error. -/
def readUntilError (eof : SocketError) :
    Nat → LPushFastBuffer → Reading.Feed UInt8 → Option (List LPushChunk × Int)
  | 0, _, _ => none
  | n + 1, b, feed =>
      match (readMessage b).run eof feed with
      | none => none
      | some ((ret, chunk, b'), feed') =>
          if ret ≠ errorSuccess then some ([], ret)
          else (readUntilError eof n b' feed').map fun (chunks, ret) => (chunk :: chunks, ret)

section

variable {b : LPushFastBuffer}

/-- A call over a whole stream takes its first frame exactly if there is one. -/
theorem run_readMessage (hb : b.WellFormed) (hnb : b.nbBuffer = lpDefaultRecvBufferSize)
    (eof : SocketError) (feed : Reading.Feed UInt8) :
    ∃ ret chunk b' feed', (readMessage b).run eof feed = some ((ret, chunk, b'), feed') ∧
      b'.WellFormed ∧ b'.nbBuffer = lpDefaultRecvBufferSize ∧
      ((ret = errorSuccess ∧ parseFrame (unread b feed) = .frame chunk (unread b' feed')) ∨
        (ret ≠ errorSuccess ∧ ∀ chunk rest, parseFrame (unread b feed) ≠ .frame chunk rest)) := by
  obtain ⟨⟨ret, chunk, b'⟩, feed', history, hrun, ⟨hb', hnb', hret⟩, hsplit, hfail⟩ :=
    Reading.run_of_ensures (readMessage_ensures hb hnb) eof feed
  rw [List.nil_append] at hret
  have hunread : unread b feed = b.data ++ received history ++ feed'.rest := by
    rw [unread, hsplit, List.append_assoc]
  refine ⟨ret, chunk, b', feed', hrun, hb', hnb'.trans hnb, ?_⟩
  rcases hret with ⟨hret, hframe, -⟩ | ⟨hret, hmalformed | ⟨hfailed, hincomplete⟩⟩
  · refine .inl ⟨hret, ?_⟩
    rw [hunread]
    exact parseFrame_append_of_frame hframe feed'.rest
  · refine .inr ⟨hret, fun chunk rest hframe => ?_⟩
    rw [hunread, parseFrame_append_of_malformed hmalformed] at hframe
    cases hframe
  · refine .inr ⟨hret, fun chunk rest hframe => ?_⟩
    rw [hunread, hfail hfailed, List.append_nil, hincomplete] at hframe
    cases hframe

/-- Reading until the first error yields the frames of the unread bytes. -/
theorem readUntilError_eq_frames (hb : b.WellFormed) (hnb : b.nbBuffer = lpDefaultRecvBufferSize)
    (eof : SocketError) (feed : Reading.Feed UInt8) :
    ∃ ret, ret ≠ errorSuccess ∧ ∀ n, (unread b feed).length < n →
      readUntilError eof n b feed = some (frames (unread b feed), ret) := by
  -- every frame shortens what is unread
  induction hmeasure : (unread b feed).length using Nat.strong_induction_on generalizing b feed with
  | _ length ih =>
    obtain ⟨ret, chunk, b', feed', hrun, hb', hnb', hret⟩ := run_readMessage hb hnb eof feed
    rcases hret with ⟨rfl, hframe⟩ | ⟨hret, hnone⟩
    · have hlength := length_of_parseFrame hframe
      obtain ⟨ret, hret, htail⟩ := ih (unread b' feed').length (by omega) hb' hnb' feed' rfl
      refine ⟨ret, hret, fun n hn => ?_⟩
      obtain ⟨calls, rfl⟩ : ∃ calls, n = calls + 1 := ⟨n - 1, by omega⟩
      simp only [readUntilError, hrun, ne_eq, not_true_eq_false, if_false]
      rw [htail calls (by omega), frames_of_frame hframe]
      rfl
    · refine ⟨ret, hret, fun n hn => ?_⟩
      obtain ⟨calls, rfl⟩ : ∃ calls, n = calls + 1 := ⟨n - 1, by omega⟩
      simp only [readUntilError, hrun, if_pos hret, frames_of_not_frame hnone]

end

/-! ### A call resumed read by read

A thread that calls `readMessage` is suspended at every read. What it has taken off the stream by
then is known at every point: between two calls from the buffer, during a call from the
specification the rest of the call still meets. -/

/-- A call of `readMessage` that has not returned yet. -/
abbrev MessageReading := SocketReading (Int × LPushChunk × LPushFastBuffer)

/-- Between two calls: of the bytes received so far, the frames `taken` have been returned and the
buffer holds the rest. -/
structure Between (taken : List LPushChunk) (stream : Bytes) (b : LPushFastBuffer) : Prop where
  wellFormed : b.WellFormed
  nbBuffer : b.nbBuffer = lpDefaultRecvBufferSize
  frames_eq : ∀ rest, frames (stream ++ rest) = taken ++ frames (b.data ++ rest)

/-- In a call that started between two calls; a read that failed since is in its history. -/
def Underway (taken : List LPushChunk) (stream : Bytes) (failed : Prop) (r : MessageReading) : Prop :=
  ∃ b history, b.WellFormed ∧ b.nbBuffer = lpDefaultRecvBufferSize ∧
    Reading.Ensures (Received b) r history ∧ (failed → Failed history) ∧
      ∀ rest, frames (stream ++ rest) = taken ++ frames (b.data ++ received history ++ rest)

section

variable {taken : List LPushChunk} {stream : Bytes} {failed : Prop}

theorem between_fresh (beyond : Bytes) : Between [] [] (.fresh beyond) where
  wellFormed := LPushFastBuffer.fresh_wellFormed beyond
  nbBuffer := rfl
  frames_eq := fun _ => rfl

theorem Between.prefix_taken {b : LPushFastBuffer} (h : Between taken stream b) (rest : Bytes) :
    taken <+: frames (stream ++ rest) := by
  rw [h.frames_eq]
  exact List.prefix_append _ _

theorem Between.start {b : LPushFastBuffer} (h : Between taken stream b) (hclean : ¬ failed) :
    Underway taken stream failed (readMessage b) := by
  refine ⟨b, [], h.wellFormed, h.nbBuffer, readMessage_ensures h.wellFormed h.nbBuffer,
    fun hfailed => (hclean hfailed).elim, fun rest => ?_⟩
  rw [received_nil, List.append_nil]
  exact h.frames_eq rest

theorem Underway.resume {size : Nat} {resume : Delivery SocketError UInt8 → MessageReading}
    (h : Underway taken stream failed (.need size resume)) {d : Delivery SocketError UInt8}
    (hd : d.Allowed size) :
    Underway taken (stream ++ received [d]) (failed ∨ Failed [d]) (resume d) := by
  obtain ⟨b, history, hb, hnb, hensures, hfailed, hframes⟩ := h
  refine ⟨b, history ++ [d], hb, hnb, hensures.resume hd, ?_, fun rest => ?_⟩
  · intro hor
    rw [failed_append]
    exact hor.imp_left hfailed
  · rw [received_append, List.append_assoc, hframes]
    simp only [List.append_assoc]

theorem Underway.not_abort (h : Underway taken stream failed .abort) : False := by
  obtain ⟨b, history, -, -, hensures, -⟩ := h
  exact hensures

/-- A call that returns success has taken the next frame, and none of its reads failed. -/
theorem Underway.done {chunk : LPushChunk} {b : LPushFastBuffer} {ret : Int}
    (h : Underway taken stream failed (.done (ret, chunk, b))) (hret : ret = errorSuccess) :
    ¬ failed ∧ Between (taken ++ [chunk]) stream b := by
  obtain ⟨start, history, -, hnb, ⟨hb, hnb', hresult⟩, hfailed, hframes⟩ := h
  rcases hresult with ⟨-, hframe, hclean⟩ | ⟨hne, -⟩
  · refine ⟨fun h => hclean (hfailed h), hb, hnb'.trans hnb, fun rest => ?_⟩
    rw [hframes, frames_of_frame (parseFrame_append_of_frame hframe rest), List.append_assoc,
      List.singleton_append]
  · exact (hne hret).elim

end

/-! ### The encoder -/

/-- The frame `sendPacket` writes is the first frame of every stream it starts. -/
theorem parseFrame_sendPacket {chunk : LPushChunk} (hlow : 1 ≤ chunk.header.datalenght.toInt)
    (hhigh : chunk.header.datalenght.toInt ≤ lpushHandshakeDataMax) (rest : Bytes) :
    parseFrame (sendPacket chunk ++ rest) = .frame chunk rest := by
  obtain ⟨header, data, hdata⟩ := chunk
  dsimp only at hlow hhigh
  have hrange : ¬ (header.datalenght.toInt ≤ 0 ∨ lpushHandshakeDataMax < header.datalenght.toInt) := by
    omega
  have hflag : ∀ t0 t1 t2 t3 : UInt8,
      occursIn lpushFlag (cStr [76, 80, 85, 83, 72, t0, t1, t2, t3, header.dataType]) = true := by
    intro t0 t1 t2 t3
    have hprefixed : cStr [76, 80, 85, 83, 72, t0, t1, t2, t3, header.dataType] =
        lpushFlag ++ cStr [t0, t1, t2, t3, header.dataType] := rfl
    have hneedle : cStr lpushFlag = lpushFlag := by decide
    rw [occursIn, decide_eq_true_iff, hprefixed, hneedle]
    exact (List.prefix_append _ _).isInfix
  have hbody : header.length ≤ (data ++ rest).length := by
    rw [List.length_append, hdata]
    omega
  simp only [sendPacket, headerBytes, List.cons_append, List.nil_append, parseFrame, assembleInt_byteAt,
    if_neg hrange, hflag, Bool.true_eq_false, if_false]
  have hheader : (⟨header.timestamp, header.dataType, header.datalenght⟩ : LPushHeader) = header := rfl
  rw [LPushChunk.setData_eq_some hbody]
  simp only [Parsed.frame.injEq, LPushChunk.mk.injEq, true_and]
  exact ⟨List.take_left' hdata, List.drop_left' hdata⟩

/-- A call takes the frame that starts what is unread, and leaves the rest. -/
theorem run_readMessage_sendPacket {b : LPushFastBuffer} (hb : b.WellFormed)
    (hnb : b.nbBuffer = lpDefaultRecvBufferSize) (eof : SocketError) (feed : Reading.Feed UInt8)
    {chunk : LPushChunk} {rest : Bytes} (hlow : 1 ≤ chunk.header.datalenght.toInt)
    (hhigh : chunk.header.datalenght.toInt ≤ lpushHandshakeDataMax)
    (hunread : unread b feed = sendPacket chunk ++ rest) :
    ∃ b' feed', (readMessage b).run eof feed = some ((errorSuccess, chunk, b'), feed') ∧ b'.WellFormed ∧
      b'.nbBuffer = lpDefaultRecvBufferSize ∧ unread b' feed' = rest := by
  obtain ⟨ret, chunk', b', feed', hrun, hb', hnb', hret⟩ := run_readMessage hb hnb eof feed
  rw [hunread, parseFrame_sendPacket hlow hhigh] at hret
  rcases hret with ⟨rfl, hframe⟩ | ⟨-, hnone⟩
  · obtain ⟨rfl, hrest⟩ := Parsed.frame.inj hframe
    exact ⟨b', feed', hrun, hb', hnb', hrest.symm⟩
  · exact (hnone _ _ rfl).elim

/-- Successive calls take the frames of a concatenation one by one, with nothing left over and
nothing read twice. -/
theorem readMessages_of_unread {b : LPushFastBuffer} (hb : b.WellFormed)
    (hnb : b.nbBuffer = lpDefaultRecvBufferSize) (eof : SocketError) (feed : Reading.Feed UInt8)
    {chunks : List LPushChunk}
    (hlength : ∀ chunk ∈ chunks, 1 ≤ chunk.header.datalenght.toInt ∧
      chunk.header.datalenght.toInt ≤ lpushHandshakeDataMax)
    (hunread : unread b feed = chunks.flatMap sendPacket) :
    readMessages eof chunks.length b feed =
      some (chunks.map fun chunk => (errorSuccess, chunk, 14 + chunk.header.length)) := by
  induction chunks generalizing b feed with
  | nil => rfl
  | cons chunk chunks ih =>
      obtain ⟨hlow, hhigh⟩ := hlength chunk List.mem_cons_self
      rw [List.flatMap_cons] at hunread
      obtain ⟨b', feed', hrun, hb', hnb', hrest⟩ := run_readMessage_sendPacket hb hnb eof feed hlow hhigh hunread
      have htail := ih hb' hnb' feed' (fun c hc => hlength c (List.mem_cons_of_mem _ hc)) hrest
      have hconsumed : (unread b feed).length - (unread b' feed').length = 14 + chunk.header.length := by
        rw [hunread, hrest, List.length_append, length_sendPacket]
        omega
      simp only [List.length_cons, readMessages, hrun, htail, Option.map_some, hconsumed, List.map_cons]

/-- **Framing round trip.** The frames `sendPacket` writes back to back come out of successive
`readMessage` calls unchanged and in order, each call consuming its own 14 header bytes and its
body, however the socket splits the stream. -/
theorem readMessages_sendPacket (chunks : List LPushChunk)
    (hlength : ∀ chunk ∈ chunks, 1 ≤ chunk.header.datalenght.toInt ∧
      chunk.header.datalenght.toInt ≤ lpushHandshakeDataMax)
    (sizes : Nat → Nat) (eof : SocketError) (beyond : Bytes) :
    readMessages eof chunks.length (.fresh beyond) ⟨chunks.flatMap sendPacket, sizes⟩ =
      some (chunks.map fun chunk => (errorSuccess, chunk, 14 + chunk.header.length)) :=
  readMessages_of_unread (LPushFastBuffer.fresh_wellFormed beyond) rfl eof _ hlength rfl

/-- A heartbeat frame, as the test client sends it. -/
def heartbeatChunk : LPushChunk := ⟨⟨0, 5, 1⟩, [1], rfl⟩

/-- Two of them, arriving in pieces of four bytes. -/
theorem readMessages_sendPacket_heartbeat :
    readMessages .read 2 (.fresh []) ⟨[heartbeatChunk, heartbeatChunk].flatMap sendPacket, fun _ => 4⟩ =
      some [(errorSuccess, heartbeatChunk, 15), (errorSuccess, heartbeatChunk, 15)] :=
  readMessages_sendPacket [heartbeatChunk, heartbeatChunk] (by decide) (fun _ => 4) .read []

/-- **Chunking independence.** The chunks read until the first error depend on the byte stream only:
not on how the socket splits it, not on which error ends it, and not on the memory around the
received bytes. -/
theorem readUntilError_independent (stream : Bytes) :
    ∃ chunks, ∀ (sizes : Nat → Nat) (eof : SocketError) (beyond : Bytes),
      ∃ ret, ret ≠ errorSuccess ∧ ∀ n, stream.length < n →
        readUntilError eof n (.fresh beyond) ⟨stream, sizes⟩ = some (chunks, ret) :=
  ⟨frames stream, fun sizes eof beyond =>
    readUntilError_eq_frames (LPushFastBuffer.fresh_wellFormed beyond) rfl eof ⟨stream, sizes⟩⟩

end LinkedonPush
