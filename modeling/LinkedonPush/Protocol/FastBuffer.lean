import LinkedonPush.Kernel.Base
import LinkedonPush.Theory.Reading

/-!
# The receive buffer

`LPushFastBuffer` of `lpushFastBuffer.cpp`. Pointers are offsets from `start`. The memory is a list
that begins with the `nb_buffer` bytes of the allocation and goes on with whatever lies behind it,
since `strstr` may look there.
-/

namespace LinkedonPush

open Theory

/-- The codes `LPushStSocket::read` fails with. -/
inductive SocketError where
  | timeout
  | read
deriving DecidableEq

def SocketError.code : SocketError → Int
  | .timeout => errorSocketTimeout
  | .read => errorSocketRead

theorem SocketError.code_ne_success (e : SocketError) : e.code ≠ errorSuccess := by
  cases e <;> decide

/-- Code that reads from the socket: it may stop at every `read`, and a failed `assert` ends the
process. -/
abbrev SocketReading := Reading SocketError UInt8

def lpDefaultRecvBufferSize : Nat := 131072

structure LPushFastBuffer where
  mem : Bytes
  p : Nat
  /-- The pointer `end`. -/
  endp : Nat
  nbBuffer : Nat

namespace LPushFastBuffer

/-- The constructor; `beyond` is the memory behind the allocation. -/
def fresh (beyond : Bytes) : LPushFastBuffer where
  mem := List.replicate lpDefaultRecvBufferSize 0 ++ beyond
  p := 0
  endp := 0
  nbBuffer := lpDefaultRecvBufferSize

def read1byte (b : LPushFastBuffer) : SocketReading (UInt8 × LPushFastBuffer) := do
  Reading.assert (b.p + 1 ≤ b.endp)
  match b.mem.drop b.p with
  | [] => .abort
  | byte :: _ => pure (byte, { b with p := b.p + 1 })

/-- The pointer to the slice, and the buffer behind it. -/
def readSlice (b : LPushFastBuffer) (size : Nat) : SocketReading (Nat × LPushFastBuffer) := do
  Reading.assert (0 < size)
  Reading.assert (b.p + size ≤ b.endp)
  pure (b.p, { b with p := b.p + size })

/-- The `memmove` of the unread bytes to `start`. -/
def compact (b : LPushFastBuffer) : LPushFastBuffer :=
  let nbExistsBytes := b.endp - b.p
  if nbExistsBytes = 0 then
    { b with p := 0, endp := 0 }
  else
    { b with
      mem := (b.mem.drop b.p).take nbExistsBytes ++ b.mem.drop nbExistsBytes
      p := 0
      endp := nbExistsBytes }

/-- A successful read stores its bytes at `end`. -/
def store (b : LPushFastBuffer) (piece : Bytes) : LPushFastBuffer :=
  { b with
    mem := b.mem.take b.endp ++ piece ++ b.mem.drop (b.endp + piece.length)
    endp := b.endp + piece.length }

/-- The loop at the end of `grow`. -/
def fill (requiredSize : Nat) (b : LPushFastBuffer) (nbFreeSpace : Nat) :
    SocketReading (Int × LPushFastBuffer) :=
  if _hmissing : b.endp < b.p + requiredSize then
    .need nbFreeSpace fun
      | .error e => .done (e.code, b)
      | .ok piece =>
          if _hread : 0 < piece.length then
            fill requiredSize (b.store piece) (nbFreeSpace - piece.length)
          else .abort
  else .done (errorSuccess, b)
termination_by b.p + requiredSize - b.endp
decreasing_by
  simp only [store]
  omega

def grow (b : LPushFastBuffer) (requiredSize : Nat) : SocketReading (Int × LPushFastBuffer) :=
  if b.p + requiredSize ≤ b.endp then
    pure (errorSuccess, b)
  else do
    Reading.assert (0 < requiredSize)
    if b.nbBuffer - b.endp < requiredSize then
      Reading.assert (b.p ≤ b.endp)
      Reading.assert (b.endp - b.p = 0 ∨ b.endp - b.p < b.nbBuffer)
      let b := b.compact
      if b.nbBuffer - b.endp < requiredSize then
        pure (errorReaderBufferOverflow, b)
      else
        fill requiredSize b (b.nbBuffer - b.endp)
    else
      fill requiredSize b (b.nbBuffer - b.endp)

/-! ### The buffer as a queue of bytes -/

/-- `start <= p <= end <= start+nb_buffer`, inside the allocation. -/
structure WellFormed (b : LPushFastBuffer) : Prop where
  p_le_endp : b.p ≤ b.endp
  endp_le_nbBuffer : b.endp ≤ b.nbBuffer
  nbBuffer_le_length : b.nbBuffer ≤ b.mem.length

/-- The received and not yet consumed bytes. -/
def data (b : LPushFastBuffer) : Bytes := (b.mem.drop b.p).take (b.endp - b.p)

theorem fresh_wellFormed (beyond : Bytes) : (fresh beyond).WellFormed where
  p_le_endp := Nat.le_refl 0
  endp_le_nbBuffer := Nat.zero_le _
  nbBuffer_le_length := by
    simp only [fresh, List.length_append, List.length_replicate]
    exact Nat.le_add_right _ _

@[simp] theorem fresh_data (beyond : Bytes) : (fresh beyond).data = [] := rfl

variable {b : LPushFastBuffer}

theorem WellFormed.endp_le_length (hb : b.WellFormed) : b.endp ≤ b.mem.length :=
  hb.endp_le_nbBuffer.trans hb.nbBuffer_le_length

theorem WellFormed.length_data (hb : b.WellFormed) : b.data.length = b.endp - b.p := by
  have hend := hb.endp_le_length
  simp only [data, List.length_take, List.length_drop]
  omega

/-- The memory from `p` on starts with the unread bytes. -/
theorem drop_p_eq_data_append (b : LPushFastBuffer) :
    b.mem.drop b.p = b.data ++ (b.mem.drop b.p).drop (b.endp - b.p) :=
  (List.take_append_drop _ _).symm

theorem WellFormed.skip (hb : b.WellFormed) {size : Nat} (hsize : size ≤ b.data.length) :
    { b with p := b.p + size }.WellFormed := by
  have hlength := hb.length_data
  have hp := hb.p_le_endp
  exact ⟨by dsimp only; omega, hb.endp_le_nbBuffer, hb.nbBuffer_le_length⟩

/-- Moving `p` on consumes bytes from the front. -/
theorem data_skip (b : LPushFastBuffer) (size : Nat) :
    { b with p := b.p + size }.data = b.data.drop size := by
  simp only [data, List.drop_take, List.drop_drop, Nat.sub_add_eq]

theorem WellFormed.store (hb : b.WellFormed) {piece : Bytes} (hroom : b.endp + piece.length ≤ b.nbBuffer) :
    (b.store piece).WellFormed := by
  obtain ⟨hp, hend, hlength⟩ := hb
  constructor
  · simp only [LPushFastBuffer.store]
    omega
  · exact hroom
  · simp only [LPushFastBuffer.store, List.length_append, List.length_take, List.length_drop]
    omega

theorem WellFormed.data_store (hb : b.WellFormed) (piece : Bytes) :
    (b.store piece).data = b.data ++ piece := by
  have hp := hb.p_le_endp
  have hend := hb.endp_le_length
  have htake : (b.mem.take b.endp).length = b.endp := List.length_take_of_le hend
  simp only [data, LPushFastBuffer.store]
  rw [List.append_assoc, List.drop_append_of_le_length (by omega), ← List.append_assoc,
    List.take_append_of_le_length (by simp only [List.length_append, List.length_drop, htake]; omega),
    List.drop_take, List.take_of_length_le]
  simp only [List.length_append, List.length_take, List.length_drop]
  omega

theorem WellFormed.compact (hb : b.WellFormed) : b.compact.WellFormed := by
  obtain ⟨hp, hend, hlength⟩ := hb
  by_cases hempty : b.endp - b.p = 0
  · simp only [LPushFastBuffer.compact, if_pos hempty]
    exact ⟨Nat.le_refl 0, Nat.zero_le _, hlength⟩
  · simp only [LPushFastBuffer.compact, if_neg hempty]
    refine ⟨Nat.zero_le _, by dsimp only; omega, ?_⟩
    simp only [List.length_append, List.length_take, List.length_drop]
    omega

theorem WellFormed.data_compact (hb : b.WellFormed) : b.compact.data = b.data := by
  have hdata := hb.length_data
  by_cases hempty : b.endp - b.p = 0
  · have hnil : b.data = [] := List.length_eq_zero_iff.mp (hdata.trans hempty)
    rw [hnil]
    simp only [LPushFastBuffer.compact, if_pos hempty, data, Nat.sub_self, List.take_zero]
  · simp only [LPushFastBuffer.compact, if_neg hempty]
    change ((b.data ++ b.mem.drop (b.endp - b.p)).drop 0).take (b.endp - b.p - 0) = b.data
    rw [List.drop_zero, Nat.sub_zero, ← hdata, List.take_left]

theorem compact_endp (b : LPushFastBuffer) : b.compact.endp = b.compact.p + (b.endp - b.p) := by
  by_cases hempty : b.endp - b.p = 0
  · simp only [compact, hempty, if_true, Nat.add_zero]
  · simp only [compact, if_neg hempty, Nat.zero_add]

theorem compact_p (b : LPushFastBuffer) : b.compact.p = 0 := by
  unfold compact
  dsimp only
  split <;> rfl

theorem compact_nbBuffer (b : LPushFastBuffer) : b.compact.nbBuffer = b.nbBuffer := by
  unfold compact
  dsimp only
  split <;> rfl

/-- What `grow` has done when it returns: it appended what it received, and it either has the
required bytes without a failed read or failed with the code of one. -/
def Grown (b : LPushFastBuffer) (requiredSize : Nat) :
    Int × LPushFastBuffer → List (Delivery SocketError UInt8) → Prop
  | (ret, b'), history =>
      b'.WellFormed ∧ b'.nbBuffer = b.nbBuffer ∧ b'.data = b.data ++ received history ∧
        ((ret = errorSuccess ∧ requiredSize ≤ b'.data.length ∧ ¬ Failed history) ∨
          ∃ e, ret = SocketError.code e ∧ Except.error e ∈ history ∧ b'.data.length < requiredSize)

theorem fill_ensures {requiredSize nbFreeSpace : Nat} (hb : b.WellFormed)
    (hfree : b.endp + nbFreeSpace = b.nbBuffer) (hroom : b.p + requiredSize ≤ b.nbBuffer)
    {start : LPushFastBuffer} {history : List (Delivery SocketError UInt8)}
    (hnb : b.nbBuffer = start.nbBuffer) (hdata : b.data = start.data ++ received history)
    (hclean : ¬ Failed history) :
    Reading.Ensures (start.Grown requiredSize) (fill requiredSize b nbFreeSpace) history := by
  -- every read brings `end` closer to `p + requiredSize`
  induction hmeasure : b.p + requiredSize - b.endp using Nat.strong_induction_on
    generalizing b nbFreeSpace history with
  | _ missing ih =>
    have hlength := hb.length_data
    have hp := hb.p_le_endp
    rw [fill]
    by_cases hmissing : b.endp < b.p + requiredSize
    · rw [dif_pos hmissing]
      refine ⟨by omega, fun d hd => ?_⟩
      cases d with
      | error e =>
          refine ⟨hb, hnb, by simpa using hdata, .inr ⟨e, rfl, by simp, by omega⟩⟩
      | ok piece =>
          have hpositive : 0 < piece.length := List.length_pos_iff.mpr hd.1
          have hfits : piece.length ≤ nbFreeSpace := hd.2
          dsimp only
          rw [dif_pos hpositive]
          refine ih ((b.store piece).p + requiredSize - (b.store piece).endp) ?_ (hb.store (by omega)) ?_
            hroom hnb ?_ ?_ rfl
          · simp only [LPushFastBuffer.store]
            omega
          · simp only [LPushFastBuffer.store]
            omega
          · rw [hb.data_store, hdata, received_append, received_ok, List.append_assoc]
          · rw [failed_append_ok]
            exact hclean
    · rw [dif_neg hmissing]
      exact ⟨hb, hnb, hdata, .inl ⟨rfl, by omega, hclean⟩⟩

/-- The request is there already, or it fits behind the unread bytes. -/
def Fits (b : LPushFastBuffer) (requiredSize : Nat) : Prop :=
  requiredSize ≤ b.data.length ∨ b.data.length + requiredSize ≤ b.nbBuffer

/-- `grow` for a request that fits: no assertion fails, every read asks for at least one byte inside the
buffer, and the buffer does not overflow. -/
theorem grow_ensures_of_fits (hb : b.WellFormed) {requiredSize : Nat} (hfits : b.Fits requiredSize) :
    Reading.Ensures (b.Grown requiredSize) (b.grow requiredSize) [] := by
  have hlength := hb.length_data
  have hp := hb.p_le_endp
  have hend := hb.endp_le_nbBuffer
  rw [grow]
  by_cases hready : b.p + requiredSize ≤ b.endp
  · rw [if_pos hready]
    exact ⟨hb, rfl, (List.append_nil _).symm, .inl ⟨rfl, by omega, not_failed_nil⟩⟩
  · have hpos : 0 < requiredSize := by omega
    have hroom : b.data.length + requiredSize ≤ b.nbBuffer := by
      rcases hfits with hthere | hroom
      · omega
      · exact hroom
    rw [if_neg hready, Reading.assert_pos hpos, Reading.done_bind]
    by_cases hspace : b.nbBuffer - b.endp < requiredSize
    · have hcompact := compact_endp b
      have hcompactP := compact_p b
      have hcompactNb := compact_nbBuffer b
      have hexists : b.endp - b.p = 0 ∨ b.endp - b.p < b.nbBuffer := by omega
      rw [if_pos hspace, Reading.assert_pos hp, Reading.done_bind, Reading.assert_pos hexists,
        Reading.done_bind]
      dsimp only
      rw [if_neg (by omega)]
      exact fill_ensures hb.compact (by omega) (by omega) hcompactNb
        (by rw [hb.data_compact, received_nil, List.append_nil]) not_failed_nil
    · rw [if_neg hspace]
      exact fill_ensures hb (by omega) (by omega) rfl (List.append_nil _).symm not_failed_nil

/-- A request of at most half the buffer always fits. -/
theorem grow_ensures (hb : b.WellFormed) {requiredSize : Nat}
    (hhalf : 2 * requiredSize ≤ b.nbBuffer) :
    Reading.Ensures (b.Grown requiredSize) (b.grow requiredSize) [] := by
  apply grow_ensures_of_fits hb
  unfold Fits
  omega

end LPushFastBuffer

end LinkedonPush
