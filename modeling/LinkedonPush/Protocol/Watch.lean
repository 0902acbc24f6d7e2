import LinkedonPush.Protocol.Receive
import LinkedonPush.Theory.Watched

/-!
# The receive buffer at every moment

The functions that work on the receive buffer once more, showing it after every change together with
two things the code does not keep: the bytes that `read_1byte` and `read_slice` have handed out, and
what `grow` returned last. Forgetting what is shown gives `readMessage` back.
-/

namespace LinkedonPush

open Theory LPushProtocol

/-- The buffer, and what has come out of it. -/
structure Watch where
  buffer : LPushFastBuffer
  consumed : Bytes
  /-- The last return value of `grow`. -/
  grown : Int

namespace Watch

abbrev Watching := Watched Watch SocketError UInt8

/-- A new protocol object. -/
def fresh (beyond : Bytes) : Watch := ⟨.fresh beyond, [], errorSuccess⟩

/-- The next `size` bytes are handed out. -/
def consume (w : Watch) (size : Nat) : Watch where
  buffer := { w.buffer with p := w.buffer.p + size }
  consumed := w.consumed ++ (w.buffer.mem.drop w.buffer.p).take size
  grown := w.grown

def read1byte (w : Watch) : Watching (UInt8 × Watch) := do
  Watched.assert (w.buffer.p + 1 ≤ w.buffer.endp)
  match w.buffer.mem.drop w.buffer.p with
  | [] => .abort
  | byte :: _ =>
      Watched.mark (w.consume 1)
      pure (byte, w.consume 1)

def readSlice (w : Watch) (size : Nat) : Watching (Nat × Watch) := do
  Watched.assert (0 < size)
  Watched.assert (w.buffer.p + size ≤ w.buffer.endp)
  Watched.mark (w.consume size)
  pure (w.buffer.p, w.consume size)

/-- `grow` returns. -/
def return_ (w : Watch) (ret : Int) : Watching (Int × Watch) := do
  let w := { w with grown := ret }
  Watched.mark w
  pure (ret, w)

def fill (requiredSize : Nat) (w : Watch) (nbFreeSpace : Nat) : Watching (Int × Watch) :=
  if _hmissing : w.buffer.endp < w.buffer.p + requiredSize then
    .need w nbFreeSpace fun
      | .error e => w.return_ e.code
      | .ok piece =>
          if _hread : 0 < piece.length then
            .moment { w with buffer := w.buffer.store piece }
              (fill requiredSize { w with buffer := w.buffer.store piece }
                (nbFreeSpace - piece.length))
          else .abort
  else w.return_ errorSuccess
termination_by w.buffer.p + requiredSize - w.buffer.endp
decreasing_by
  simp only [LPushFastBuffer.store]
  omega

def grow (w : Watch) (requiredSize : Nat) : Watching (Int × Watch) :=
  if w.buffer.p + requiredSize ≤ w.buffer.endp then
    w.return_ errorSuccess
  else do
    Watched.assert (0 < requiredSize)
    if w.buffer.nbBuffer - w.buffer.endp < requiredSize then
      Watched.assert (w.buffer.p ≤ w.buffer.endp)
      Watched.assert (w.buffer.endp - w.buffer.p = 0 ∨ w.buffer.endp - w.buffer.p < w.buffer.nbBuffer)
      let w := { w with buffer := w.buffer.compact }
      Watched.mark w
      if w.buffer.nbBuffer - w.buffer.endp < requiredSize then
        w.return_ errorReaderBufferOverflow
      else
        fill requiredSize w (w.buffer.nbBuffer - w.buffer.endp)
    else
      fill requiredSize w (w.buffer.nbBuffer - w.buffer.endp)

def readInt : Bytes → Watching (BitVec 32)
  | b0 :: b1 :: b2 :: b3 :: _ => pure (assembleInt b0 b1 b2 b3)
  | _ => .abort

def readHeader (w : Watch) : Watching (Int × LPushHeader × Watch) := do
  let (buf, w) ← w.readSlice 5
  if occursIn lpushFlag (cStr (w.buffer.mem.drop buf)) = false then
    pure (errorSystemFileRead, .empty, w)
  else
    let (buf, w) ← w.readSlice 4
    let timestamp ← readInt (w.buffer.mem.drop buf)
    let (dataType, w) ← w.read1byte
    let (buf, w) ← w.readSlice 4
    let dataLen ← readInt (w.buffer.mem.drop buf)
    if dataLen.toInt ≤ 0 then
      pure (errorDataEmpty, .empty, w)
    else if lpushHandshakeDataMax < dataLen.toInt then
      pure (errorDataMax, .empty, w)
    else
      pure (errorSuccess, ⟨timestamp, dataType, dataLen⟩, w)

def readMessage (w : Watch) : Watching (Int × LPushChunk × Watch) := do
  let (ret, w) ← w.grow 14
  if ret ≠ errorSuccess then
    pure (ret, .empty, w)
  else
    let (ret, lph, w) ← readHeader w
    if ret ≠ errorSuccess then
      pure (ret, .empty, w)
    else if 0 < lph.datalenght.toInt then
      let (ret, w) ← w.grow lph.length
      if ret ≠ errorSuccess then
        pure (ret, .empty, w)
      else
        let (buf, w) ← w.readSlice lph.length
        match LPushChunk.setData lph (w.buffer.mem.drop buf) with
        | none => .abort
        | some lpc => pure (ret, lpc, w)
    else
      match LPushChunk.setData lph [] with
      | none => .abort
      | some lpc => pure (ret, lpc, w)

/-- Any number of calls on one protocol object, whatever they return. -/
def readMessages : Nat → Watch → Watching Watch
  | 0, w => pure w
  | n + 1, w => do
      let (_, _, w) ← w.readMessage
      readMessages n w

/-- The calls as the code makes them. -/
def calls : Nat → LPushFastBuffer → SocketReading LPushFastBuffer
  | 0, b => pure b
  | n + 1, b => do
      let (_, _, b) ← LPushProtocol.readMessage b
      calls n b

/-! ### Forgetting what is shown -/

section

variable {w : Watch}

/-- A result with its watch reduced to the buffer. -/
def plain {α : Type} : α × Watch → α × LPushFastBuffer
  | (result, w) => (result, w.buffer)

theorem erases_read1byte : Watched.Erases plain w.read1byte w.buffer.read1byte := by
  unfold read1byte LPushFastBuffer.read1byte
  apply Watched.Erases.assert
  cases w.buffer.mem.drop w.buffer.p with
  | nil => exact Watched.erases_abort
  | cons byte rest => exact (Watched.erases_pure (byte, w.consume 1)).mark _

theorem erases_readSlice (size : Nat) :
    Watched.Erases plain (w.readSlice size) (w.buffer.readSlice size) := by
  unfold readSlice LPushFastBuffer.readSlice
  apply Watched.Erases.assert
  apply Watched.Erases.assert
  exact (Watched.erases_pure (w.buffer.p, w.consume size)).mark _

theorem erases_return (ret : Int) : Watched.Erases plain (w.return_ ret) (pure (ret, w.buffer)) :=
  rfl

theorem erases_fill (requiredSize nbFreeSpace : Nat) :
    Watched.Erases plain (fill requiredSize w nbFreeSpace)
      (w.buffer.fill requiredSize nbFreeSpace) := by
  induction hmeasure : w.buffer.p + requiredSize - w.buffer.endp using Nat.strong_induction_on
    generalizing w nbFreeSpace with
  | _ missing ih =>
    rw [fill, LPushFastBuffer.fill]
    by_cases hmissing : w.buffer.endp < w.buffer.p + requiredSize
    · rw [dif_pos hmissing, dif_pos hmissing]
      unfold Watched.Erases
      change Reading.need nbFreeSpace _ = Reading.need nbFreeSpace _
      congr 1
      funext d
      cases d with
      | error e => rfl
      | ok piece =>
          dsimp only
          by_cases hread : 0 < piece.length
          · rw [dif_pos hread, dif_pos hread]
            refine ih _ ?_ (w := { w with buffer := w.buffer.store piece }) _ rfl
            simp only [LPushFastBuffer.store]
            omega
          · rw [dif_neg hread, dif_neg hread]
            rfl
    · rw [dif_neg hmissing, dif_neg hmissing]
      exact erases_return errorSuccess

theorem erases_grow (requiredSize : Nat) :
    Watched.Erases plain (w.grow requiredSize) (w.buffer.grow requiredSize) := by
  unfold grow LPushFastBuffer.grow
  refine .ite (fun _ => erases_return errorSuccess) fun _ => ?_
  apply Watched.Erases.assert
  refine .ite (fun _ => ?_) fun _ => erases_fill requiredSize _
  apply Watched.Erases.assert
  apply Watched.Erases.assert
  apply Watched.Erases.mark
  exact .ite (fun _ => erases_return errorReaderBufferOverflow) fun _ => erases_fill requiredSize _

/-- The same for results of two components. -/
def plainPair {α β : Type} : α × β × Watch → α × β × LPushFastBuffer
  | (first, second, w) => (first, second, w.buffer)

theorem erases_readInt : (bytes : Bytes) →
    Watched.Erases id (readInt bytes) (LPushProtocol.readInt bytes)
  | [] | [_] | [_, _] | [_, _, _] => Watched.erases_abort
  | b0 :: b1 :: b2 :: b3 :: _ => Watched.erases_pure (assembleInt b0 b1 b2 b3)

theorem erases_readHeader :
    Watched.Erases plainPair (readHeader w) (LPushProtocol.readHeader w.buffer) := by
  unfold readHeader LPushProtocol.readHeader
  refine Watched.erases_bind (erases_readSlice 5) fun ⟨buf, w⟩ => ?_
  refine .ite (fun _ => Watched.erases_pure _) fun _ => ?_
  refine Watched.erases_bind (erases_readSlice 4) fun ⟨buf, w⟩ => ?_
  refine Watched.erases_bind (erases_readInt _) fun timestamp => ?_
  refine Watched.erases_bind erases_read1byte fun ⟨dataType, w⟩ => ?_
  refine Watched.erases_bind (erases_readSlice 4) fun ⟨buf, w⟩ => ?_
  refine Watched.erases_bind (erases_readInt _) fun dataLen => ?_
  refine .ite (fun _ => Watched.erases_pure _) fun _ => ?_
  exact .ite (fun _ => Watched.erases_pure _) fun _ => Watched.erases_pure _

/-- The end of `readMessage`. -/
theorem erases_setData (ret : Int) (lph : LPushHeader) (memory : Bytes) :
    Watched.Erases plainPair
      (match LPushChunk.setData lph memory with
        | none => (.abort : Watching (Int × LPushChunk × Watch))
        | some lpc => pure (ret, lpc, w))
      (match LPushChunk.setData lph memory with
        | none => .abort
        | some lpc => pure (ret, lpc, w.buffer)) := by
  cases LPushChunk.setData lph memory with
  | none => exact Watched.erases_abort
  | some lpc => exact Watched.erases_pure _

theorem erases_readMessage :
    Watched.Erases plainPair w.readMessage (LPushProtocol.readMessage w.buffer) := by
  unfold readMessage LPushProtocol.readMessage
  refine Watched.erases_bind (erases_grow 14) fun ⟨ret, w⟩ => ?_
  refine .ite (fun _ => Watched.erases_pure _) fun _ => ?_
  refine Watched.erases_bind erases_readHeader fun ⟨ret, lph, w⟩ => ?_
  refine .ite (fun _ => Watched.erases_pure _) fun _ => ?_
  refine .ite (fun _ => ?_) fun _ => erases_setData ret lph []
  refine Watched.erases_bind (erases_grow lph.length) fun ⟨ret, w⟩ => ?_
  refine .ite (fun _ => Watched.erases_pure _) fun _ => ?_
  refine Watched.erases_bind (erases_readSlice lph.length) fun ⟨buf, w⟩ => ?_
  exact erases_setData ret lph _

/-- Without the watch, the calls are calls of `readMessage` on one buffer. -/
theorem erases_readMessages (n : Nat) :
    Watched.Erases buffer (readMessages n w) (calls n w.buffer) := by
  induction n generalizing w with
  | zero => exact Watched.erases_pure w
  | succ n ih =>
      refine Watched.erases_bind erases_readMessage fun ⟨ret, chunk, w⟩ => ?_
      exact ih

end

/-! ### The queue -/

/-- The pointers are in order, what has been consumed and what lies in `[p, end)` is together what
has been received, and `grow` has not overflowed. -/
structure Tracks (w : Watch) (history : List (Delivery SocketError UInt8)) : Prop where
  wellFormed : w.buffer.WellFormed
  nbBuffer : w.buffer.nbBuffer = lpDefaultRecvBufferSize
  received_eq : received history = w.consumed ++ w.buffer.data
  grown_ne : w.grown ≠ errorReaderBufferOverflow

/-- A read asks for at least one byte and lies inside the buffer. -/
def HasRoom (w : Watch) (size : Nat) : Prop :=
  1 ≤ size ∧ w.buffer.endp + size ≤ w.buffer.nbBuffer

section

variable {w : Watch} {history : List (Delivery SocketError UInt8)}

theorem tracks_fresh (beyond : Bytes) : (fresh beyond).Tracks [] where
  wellFormed := LPushFastBuffer.fresh_wellFormed beyond
  nbBuffer := rfl
  received_eq := rfl
  grown_ne := show errorSuccess ≠ errorReaderBufferOverflow by decide

theorem Tracks.consume (h : w.Tracks history) {size : Nat} (hsize : size ≤ w.buffer.data.length) :
    (w.consume size).Tracks history where
  wellFormed := h.wellFormed.skip hsize
  nbBuffer := h.nbBuffer
  received_eq := by
    have htake : (w.buffer.mem.drop w.buffer.p).take size = w.buffer.data.take size := by
      rw [w.buffer.drop_p_eq_data_append, List.take_append_of_le_length hsize]
    have hskip : (w.consume size).buffer.data = w.buffer.data.drop size := w.buffer.data_skip size
    rw [hskip, h.received_eq]
    simp only [Watch.consume, htake, List.append_assoc, List.take_append_drop]
  grown_ne := h.grown_ne

theorem Tracks.grown (h : w.Tracks history) {ret : Int} (hret : ret ≠ errorReaderBufferOverflow) :
    { w with grown := ret }.Tracks history :=
  ⟨h.wellFormed, h.nbBuffer, h.received_eq, hret⟩

theorem Tracks.compact (h : w.Tracks history) :
    { w with buffer := w.buffer.compact }.Tracks history where
  wellFormed := h.wellFormed.compact
  nbBuffer := (LPushFastBuffer.compact_nbBuffer _).trans h.nbBuffer
  received_eq := by
    dsimp only
    rw [h.wellFormed.data_compact]
    exact h.received_eq
  grown_ne := h.grown_ne

theorem Tracks.store (h : w.Tracks history) (piece : Bytes)
    (hroom : w.buffer.endp + piece.length ≤ w.buffer.nbBuffer) :
    { w with buffer := w.buffer.store piece }.Tracks (history ++ [Except.ok piece]) where
  wellFormed := h.wellFormed.store hroom
  nbBuffer := h.nbBuffer
  received_eq := by
    dsimp only
    rw [h.wellFormed.data_store, received_append, received_ok, h.received_eq, List.append_assoc]
  grown_ne := h.grown_ne

theorem Tracks.error (h : w.Tracks history) (e : SocketError) : w.Tracks (history ++ [.error e]) where
  wellFormed := h.wellFormed
  nbBuffer := h.nbBuffer
  received_eq := by rw [received_append, received_error, List.append_nil, h.received_eq]
  grown_ne := h.grown_ne

/-- The watched computation keeps the buffer a queue and its reads inside, and ends in a result that
satisfies the postcondition. -/
abbrev Keeps {α : Type} (post : α → List (Delivery SocketError UInt8) → Prop) (r : Watching α)
    (history : List (Delivery SocketError UInt8)) : Prop :=
  r.Always Tracks HasRoom post history

theorem Tracks.read1byte (h : w.Tracks history) (hdata : 1 ≤ w.buffer.data.length) :
    Keeps (fun (_, w') history => w'.Tracks history ∧ w'.buffer.data.length + 1 = w.buffer.data.length)
      w.read1byte history := by
  have hlength := h.wellFormed.length_data
  unfold Watch.read1byte
  refine Watched.always_bind (Watched.always_assert (by omega) ?_)
  cases hmem : w.buffer.mem.drop w.buffer.p with
  | nil =>
      have hnil : w.buffer.data = [] := by rw [LPushFastBuffer.data, hmem, List.take_nil]
      rw [hnil, List.length_nil] at hdata
      omega
  | cons byte rest =>
      have hconsume := h.consume hdata
      refine Watched.always_bind (Watched.always_mark hconsume ⟨hconsume, ?_⟩)
      have hskip : (w.consume 1).buffer.data = w.buffer.data.drop 1 := w.buffer.data_skip 1
      rw [hskip, List.length_drop]
      omega

theorem Tracks.readSlice (h : w.Tracks history) {size : Nat} (hpos : 0 < size)
    (hdata : size ≤ w.buffer.data.length) :
    Keeps (fun (buf, w') history => w'.Tracks history ∧ buf = w.buffer.p ∧ w'.buffer.mem = w.buffer.mem ∧
      w'.buffer.data.length + size = w.buffer.data.length) (w.readSlice size) history := by
  have hlength := h.wellFormed.length_data
  have hconsume := h.consume hdata
  unfold Watch.readSlice
  refine Watched.always_bind (Watched.always_assert hpos ?_)
  refine Watched.always_bind (Watched.always_assert (by omega) ?_)
  refine Watched.always_bind (Watched.always_mark hconsume ⟨hconsume, rfl, rfl, ?_⟩)
  have hskip : (w.consume size).buffer.data = w.buffer.data.drop size := w.buffer.data_skip size
  rw [hskip, List.length_drop]
  omega

/-- What `grow` leaves: it says how it returned, and after a success the required bytes are there. -/
def Supplied (requiredSize : Nat) :
    Int × Watch → List (Delivery SocketError UInt8) → Prop
  | (ret, w), history => w.Tracks history ∧ (ret = errorSuccess → requiredSize ≤ w.buffer.data.length)

theorem Tracks.return_ (h : w.Tracks history) {ret : Int} {requiredSize : Nat}
    (hret : ret ≠ errorReaderBufferOverflow)
    (hdata : ret = errorSuccess → requiredSize ≤ w.buffer.data.length) :
    Keeps (Supplied requiredSize) (w.return_ ret) history :=
  ⟨h.grown hret, h.grown hret, hdata⟩

theorem Tracks.fill {requiredSize nbFreeSpace : Nat} (h : w.Tracks history)
    (hfree : w.buffer.endp + nbFreeSpace = w.buffer.nbBuffer)
    (hroom : w.buffer.p + requiredSize ≤ w.buffer.nbBuffer) :
    Keeps (Supplied requiredSize) (Watch.fill requiredSize w nbFreeSpace) history := by
  -- the free-space counter is what is left behind `end`, before every read
  induction hmeasure : w.buffer.p + requiredSize - w.buffer.endp using Nat.strong_induction_on
    generalizing w nbFreeSpace history with
  | _ missing ih =>
    rw [Watch.fill]
    by_cases hmissing : w.buffer.endp < w.buffer.p + requiredSize
    · rw [dif_pos hmissing]
      refine ⟨h, ⟨by omega, by omega⟩, fun d hd => ?_⟩
      cases d with
      | error e =>
          refine (h.error e).return_ ?_ fun hsuccess => (e.code_ne_success hsuccess).elim
          cases e <;> decide
      | ok piece =>
          have hpositive : 0 < piece.length := List.length_pos_iff.mpr hd.1
          have hfits : piece.length ≤ nbFreeSpace := hd.2
          have hstore := h.store piece (by omega)
          dsimp only
          rw [dif_pos hpositive]
          refine ⟨hstore, ih _ ?_ hstore ?_ hroom rfl⟩
          · simp only [LPushFastBuffer.store]
            omega
          · simp only [LPushFastBuffer.store]
            omega
    · rw [dif_neg hmissing]
      have hlength := h.wellFormed.length_data
      exact h.return_ (by decide) fun _ => by omega

/-- `grow` for a request of at most half the buffer. -/
theorem Tracks.grow (h : w.Tracks history) {requiredSize : Nat} (hpos : 0 < requiredSize)
    (hhalf : 2 * requiredSize ≤ lpDefaultRecvBufferSize) :
    Keeps (Supplied requiredSize) (w.grow requiredSize) history := by
  have hnb := h.nbBuffer
  have hlength := h.wellFormed.length_data
  have hp := h.wellFormed.p_le_endp
  have hend := h.wellFormed.endp_le_nbBuffer
  rw [Watch.grow]
  by_cases hready : w.buffer.p + requiredSize ≤ w.buffer.endp
  · rw [if_pos hready]
    exact h.return_ (by decide) fun _ => by omega
  rw [if_neg hready]
  refine Watched.always_bind (Watched.always_assert hpos ?_)
  by_cases hspace : w.buffer.nbBuffer - w.buffer.endp < requiredSize
  · have hexists : w.buffer.endp - w.buffer.p = 0 ∨ w.buffer.endp - w.buffer.p < w.buffer.nbBuffer := by
      omega
    have hcompact := LPushFastBuffer.compact_endp w.buffer
    have hcompactP := LPushFastBuffer.compact_p w.buffer
    have hcompactNb := LPushFastBuffer.compact_nbBuffer w.buffer
    rw [if_pos hspace]
    refine Watched.always_bind (Watched.always_assert hp ?_)
    refine Watched.always_bind (Watched.always_assert hexists ?_)
    refine Watched.always_bind (Watched.always_mark h.compact ?_)
    dsimp only
    rw [if_neg (by omega)]
    exact h.compact.fill (by dsimp only; omega) (by dsimp only; omega)
  · rw [if_neg hspace]
    exact h.fill (by omega) (by omega)

theorem keeps_readInt {bytes : Bytes} {post : BitVec 32 → List (Delivery SocketError UInt8) → Prop}
    (hlength : 4 ≤ bytes.length) (hpost : ∀ value, post value history) :
    Keeps post (readInt bytes) history := by
  match bytes, hlength with
  | b0 :: b1 :: b2 :: b3 :: _, _ => exact hpost (assembleInt b0 b1 b2 b3)

/-- The memory behind `p` holds at least the unread bytes. -/
theorem length_memory {size : Nat} (hdata : size ≤ w.buffer.data.length) :
    size ≤ (w.buffer.mem.drop w.buffer.p).length := by
  rw [w.buffer.drop_p_eq_data_append, List.length_append]
  omega

/-- What `readHeader` leaves: after a success the body has at most 400 bytes. -/
def HeaderRead : Int × LPushHeader × Watch → List (Delivery SocketError UInt8) → Prop
  | (ret, lph, w), history =>
      w.Tracks history ∧ (ret = errorSuccess → 0 < lph.datalenght.toInt → 0 < lph.length ∧ lph.length ≤ 400)

theorem Tracks.readHeader (h : w.Tracks history) (hdata : 14 ≤ w.buffer.data.length) :
    Keeps HeaderRead w.readHeader history := by
  unfold Watch.readHeader
  refine Watched.always_bind ((h.readSlice (by decide) (by omega)).mono ?_)
  intro ⟨buf, w₁⟩ history ⟨h₁, hbuf, hmem, hlength₁⟩
  refine .ite (fun _ => ⟨h₁, fun hret => absurd hret (by decide)⟩) fun _ => ?_
  refine Watched.always_bind ((h₁.readSlice (by decide) (by omega)).mono ?_)
  intro ⟨buf, w₂⟩ history ⟨h₂, hbuf, hmem, hlength₂⟩
  have htimestamp : 4 ≤ (w₂.buffer.mem.drop buf).length := by
    rw [hmem, hbuf]
    exact length_memory (by omega)
  refine Watched.always_bind (keeps_readInt htimestamp fun timestamp => ?_)
  refine Watched.always_bind ((h₂.read1byte (by omega)).mono ?_)
  intro ⟨dataType, w₃⟩ history ⟨h₃, hlength₃⟩
  refine Watched.always_bind ((h₃.readSlice (by decide) (by omega)).mono ?_)
  intro ⟨buf, w₄⟩ history ⟨h₄, hbuf, hmem, hlength₄⟩
  have hdatalenght : 4 ≤ (w₄.buffer.mem.drop buf).length := by
    rw [hmem, hbuf]
    exact length_memory (by omega)
  refine Watched.always_bind (keeps_readInt hdatalenght fun dataLen => ?_)
  refine .ite (fun _ => ⟨h₄, fun hret => absurd hret (by decide)⟩) fun hlow => ?_
  refine .ite (fun _ => ⟨h₄, fun hret => absurd hret (by decide)⟩) fun hhigh => ?_
  refine ⟨h₄, fun _ _ => ?_⟩
  simp only [LPushHeader.length, lpushHandshakeDataMax] at hhigh ⊢
  omega

theorem Tracks.readMessage (h : w.Tracks history) :
    Keeps (fun (_, _, w') history => w'.Tracks history) w.readMessage history := by
  unfold Watch.readMessage
  refine Watched.always_bind ((h.grow (by decide) (by decide)).mono ?_)
  intro ⟨ret, w₁⟩ history ⟨h₁, hheader⟩
  refine .ite (fun _ => h₁) fun hret => ?_
  refine Watched.always_bind ((h₁.readHeader (hheader (not_not.mp hret))).mono ?_)
  intro ⟨ret, lph, w₂⟩ history ⟨h₂, hlength⟩
  refine .ite (fun _ => h₂) fun hret => ?_
  refine .ite (fun hpositive => ?_) fun hzero => ?_
  · obtain ⟨hpos, hmax⟩ := hlength (not_not.mp hret) hpositive
    have hhalf : 2 * lph.length ≤ lpDefaultRecvBufferSize := by
      rw [lpDefaultRecvBufferSize]
      omega
    refine Watched.always_bind ((h₂.grow hpos hhalf).mono ?_)
    intro ⟨ret, w₃⟩ history ⟨h₃, hbody⟩
    refine .ite (fun _ => h₃) fun hret => ?_
    have hlph : lph.length ≤ w₃.buffer.data.length := hbody (not_not.mp hret)
    refine Watched.always_bind ((h₃.readSlice hpos hlph).mono ?_)
    intro ⟨buf, w₄⟩ history ⟨h₄, hbuf, hmem, _⟩
    have hmemory : lph.length ≤ (w₄.buffer.mem.drop buf).length := by
      rw [hmem, hbuf]
      exact length_memory hlph
    show Watched.Always Tracks HasRoom _ (match LPushChunk.setData lph (w₄.buffer.mem.drop buf) with
      | none => .abort
      | some lpc => pure (ret, lpc, w₄)) history
    rw [LPushChunk.setData_eq_some hmemory]
    exact h₄
  · have hempty : lph.length ≤ ([] : Bytes).length := by
      simp only [LPushHeader.length, List.length_nil]
      omega
    rw [LPushChunk.setData_eq_some hempty]
    exact h₂

/-- Calls in a row: whatever one returns, the next finds the buffer a queue. -/
theorem Tracks.readMessages (h : w.Tracks history) (n : Nat) :
    Keeps (fun w' history => w'.Tracks history) (Watch.readMessages n w) history := by
  induction n generalizing w history with
  | zero => exact h
  | succ n ih =>
      refine Watched.always_bind (h.readMessage.mono ?_)
      intro ⟨ret, chunk, w'⟩ history h'
      exact ih h'

end

end Watch

/-- **The receive buffer is a byte queue.** Over any calls of `readMessage` on one protocol object
and any behaviour of the socket, at every change and at every read `[p, end)` is what has been
received and not consumed, the pointers are in order, every read of `grow` is at least one byte and
inside the buffer, no assertion fails, and `grow` does not overflow. The watched calls are the calls
themselves once what is shown is forgotten. -/
theorem LPushFastBuffer.refines_queue (beyond : Bytes) (n : Nat) :
    Watched.Erases Watch.buffer (Watch.readMessages n (.fresh beyond)) (Watch.calls n (.fresh beyond)) ∧
      Watched.Always Watch.Tracks Watch.HasRoom Watch.Tracks (Watch.readMessages n (.fresh beyond)) [] :=
  ⟨Watch.erases_readMessages n, (Watch.tracks_fresh beyond).readMessages n⟩

end LinkedonPush
