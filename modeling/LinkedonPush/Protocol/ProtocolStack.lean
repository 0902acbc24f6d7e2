import Mathlib.Data.Vector.Basic
import LinkedonPush.Protocol.FastBuffer

/-!
# Frames

`LPushHeader`, `LPushChunk` and the framing half of `LPushProtocol`: `sendPacket`, `readHeader` and
`readMessage` of `lpushProtocolStack.cpp`. The `lpush_flag` of a header is left out: every
constructor sets it to `LPUSH` and nothing reads it.
-/

namespace LinkedonPush

open Theory

structure LPushHeader where
  timestamp : BitVec 32
  dataType : UInt8
  datalenght : BitVec 32
deriving DecidableEq

namespace LPushHeader

/-- The constructor without arguments; `dataType` is `-1`. -/
def empty : LPushHeader := ⟨0, 0xFF, 0⟩

/-- `datalenght` as a number of bytes. -/
def length (header : LPushHeader) : Nat := header.datalenght.toInt.toNat

end LPushHeader

/-- A chunk owns a copy of `datalenght` body bytes. -/
@[ext] structure LPushChunk where
  header : LPushHeader
  data : Bytes
  length_data : data.length = header.length

namespace LPushChunk

def empty : LPushChunk := ⟨.empty, [], rfl⟩

/-- `setData` with the memory that starts at its argument; `none` if the `memcpy` runs out of it. -/
def setData (hd : LPushHeader) (chunk : Bytes) : Option LPushChunk :=
  if h : (chunk.take hd.length).length = hd.length then
    some ⟨hd, chunk.take hd.length, h⟩
  else none

theorem setData_eq_some {hd : LPushHeader} {chunk : Bytes} (h : hd.length ≤ chunk.length) :
    setData hd chunk = some ⟨hd, chunk.take hd.length, List.length_take_of_le h⟩ :=
  dif_pos (List.length_take_of_le h)

theorem setData_eq_none {hd : LPushHeader} {chunk : Bytes} (h : chunk.length < hd.length) :
    setData hd chunk = none := by
  apply dif_neg
  rw [List.length_take]
  omega

end LPushChunk

namespace LPushProtocol

def lpushHandshakeDataMax : Int := 400

/-- `LPushFlag`, with the byte behind the array being NUL. -/
def lpushFlag : Bytes := text "LPUSH"

/-- The header `sendPacket` assembles. -/
def headerBytes (header : LPushHeader) : Bytes :=
  [76, 80, 85, 83, 72,
    byteAt header.timestamp 24, byteAt header.timestamp 16, byteAt header.timestamp 8,
    byteAt header.timestamp 0,
    header.dataType,
    byteAt header.datalenght 24, byteAt header.datalenght 16, byteAt header.datalenght 8,
    byteAt header.datalenght 0]

/-- The bytes `sendPacket` hands to `writev`. -/
def sendPacket (message : LPushChunk) : Bytes := headerBytes message.header ++ message.data

theorem length_sendPacket (message : LPushChunk) :
    (sendPacket message).length = 14 + message.header.length := by
  rw [sendPacket, List.length_append, message.length_data]
  rfl

def readInt : Bytes → SocketReading (BitVec 32)
  | b0 :: b1 :: b2 :: b3 :: _ => pure (assembleInt b0 b1 b2 b3)
  | _ => .abort

def readHeader (b : LPushFastBuffer) : SocketReading (Int × LPushHeader × LPushFastBuffer) := do
  let (buf, b) ← b.readSlice 5
  -- `strstr` runs past the five flag bytes, up to the first NUL in memory
  if occursIn lpushFlag (cStr (b.mem.drop buf)) = false then
    pure (errorSystemFileRead, .empty, b)
  else
    let (buf, b) ← b.readSlice 4
    let timestamp ← readInt (b.mem.drop buf)
    let (dataType, b) ← b.read1byte
    let (buf, b) ← b.readSlice 4
    let dataLen ← readInt (b.mem.drop buf)
    if dataLen.toInt ≤ 0 then
      pure (errorDataEmpty, .empty, b)
    else if lpushHandshakeDataMax < dataLen.toInt then
      pure (errorDataMax, .empty, b)
    else
      pure (errorSuccess, ⟨timestamp, dataType, dataLen⟩, b)

def readMessage (b : LPushFastBuffer) : SocketReading (Int × LPushChunk × LPushFastBuffer) := do
  let (ret, b) ← b.grow 14
  if ret ≠ errorSuccess then
    pure (ret, .empty, b)
  else
    let (ret, lph, b) ← readHeader b
    if ret ≠ errorSuccess then
      pure (ret, .empty, b)
    else if 0 < lph.datalenght.toInt then
      let (ret, b) ← b.grow lph.length
      if ret ≠ errorSuccess then
        pure (ret, .empty, b)
      else
        let (buf, b) ← b.readSlice lph.length
        match LPushChunk.setData lph (b.mem.drop buf) with
        | none => .abort
        | some lpc => pure (ret, lpc, b)
    else
      match LPushChunk.setData lph [] with
      | none => .abort
      | some lpc => pure (ret, lpc, b)

end LPushProtocol

/-! ### The frame grammar

What the buffer, the searches in raw memory and the split reads amount to: a partition of the byte
stream into frames. -/

inductive Parsed where
  /-- The stream has to go on before the frame can be judged. -/
  | incomplete
  | malformed
  | frame (chunk : LPushChunk) (rest : Bytes)

open LPushProtocol in
/-- The first frame of a stream. -/
def parseFrame : Bytes → Parsed
  | f0 :: f1 :: f2 :: f3 :: f4 :: t0 :: t1 :: t2 :: t3 :: dataType :: l0 :: l1 :: l2 :: l3 :: body =>
      let datalenght := assembleInt l0 l1 l2 l3
      if datalenght.toInt ≤ 0 ∨ lpushHandshakeDataMax < datalenght.toInt then .malformed
      else if occursIn lpushFlag (cStr [f0, f1, f2, f3, f4, t0, t1, t2, t3, dataType]) = false then
        .malformed
      else
        let header : LPushHeader := ⟨assembleInt t0 t1 t2 t3, dataType, datalenght⟩
        match LPushChunk.setData header body with
        | none => .incomplete
        | some chunk => .frame chunk (body.drop header.length)
  | _ => .incomplete

end LinkedonPush
