import Luwu.ByteArray.Integers
import Luwu.Lib.Splice
import Luwu.Stream.Basic
import Mathlib.Algebra.Group.Int.Defs
import Mathlib.Logic.Relation

/-!
# WebSocket messages

`WSRecvMessage`, `WSSendMessage`, `WSPing` and `WSPong` over a stream.  The frame header is laid out
as the two header bytes of RFC 6455.  The receive loop keeps the length so far in an `int` and
computes with lengths from the wire as `uint64_t`.
-/

namespace Luwu.WebSocket

open Lib

/-! ## Frame headers -/

/-- `WSFrameHead`, with its bit fields. -/
structure WSFrameHead where
  opcode : BitVec 4
  rsv3 : Bool := false
  rsv2 : Bool := false
  rsv1 : Bool := false
  fin : Bool := false
  payload : BitVec 7 := 0
  mask : Bool := false
deriving DecidableEq, Repr

namespace WSFrameHead

def CONTINUE : BitVec 4 := 0
def TEXT_FRAME : BitVec 4 := 1
def BIN_FRAME : BitVec 4 := 2
def CLOSE : BitVec 4 := 8
def PING : BitVec 4 := 0x9
def PONG : BitVec 4 := 0xA

/-- The two bytes of the header in memory. -/
def toBytes (h : WSFrameHead) : Bytes :=
  [UInt8.ofNat (h.opcode.toNat + 16 * h.rsv3.toNat + 32 * h.rsv2.toNat + 64 * h.rsv1.toNat +
      128 * h.fin.toNat),
    UInt8.ofNat (h.payload.toNat + 128 * h.mask.toNat)]

/-- The header whose bytes are `d`. -/
def ofBytes (d : Bytes) : WSFrameHead :=
  let b₀ := (d.getD 0 0).toNat
  let b₁ := (d.getD 1 0).toNat
  { opcode := BitVec.ofNat 4 b₀
    rsv3 := b₀ / 16 % 2 = 1
    rsv2 := b₀ / 32 % 2 = 1
    rsv1 := b₀ / 64 % 2 = 1
    fin := b₀ / 128 % 2 = 1
    payload := BitVec.ofNat 7 b₁
    mask := b₁ / 128 % 2 = 1 }

end WSFrameHead

def headSize : Nat := 2

structure WSFrameMessage where
  opcode : Int := 0
  data : Bytes := []
deriving DecidableEq, Repr

/-! ## Machine integers -/

/-- An `int` from the low 32 bits of a number. -/
def int32 (n : Nat) : Int :=
  if n % 2 ^ 32 < 2 ^ 31 then (n % 2 ^ 32 : Nat) else (n % 2 ^ 32 : Nat) - 2 ^ 32

/-- An `int`, given by its 32 bits, as an operand of `uint64_t` arithmetic. -/
def widen (c : Nat) : Nat := if c < 2 ^ 31 then c else c + (2 ^ 64 - 2 ^ 32)

/-- `byteSwapOnLittleEndian` of the `n`-byte integer in memory at `d`. -/
def fromWire (n : Nat) (d : Bytes) : Nat :=
  (ByteArray.byteSwap n (BitVec.ofNat (8 * n) (ByteArray.ofBytes d))).toNat

/-- The `n` bytes in memory of `byteSwapOnLittleEndian` of an integer. -/
def toWire (n : Nat) (v : Nat) : Bytes :=
  ByteArray.toBytes n (ByteArray.byteSwap n (BitVec.ofNat (8 * n) v))

/-- `b ^= mask[i % 4]`. -/
def maskByte (mask : Bytes) (i : Nat) (b : UInt8) : UInt8 := b ^^^ mask.getD (i % 4) 0

/-! ## Control frames -/

/-- A header written on its own; the stream is closed when that fails. -/
def sendHead (head : WSFrameHead) (s : Stream) : Int × Stream :=
  let w := s.writeFixSize head.toBytes
  let v := int32 w.1
  if v ≤ 0 then (v, w.2.close) else (v, w.2)

def wsPing : Stream → Int × Stream := sendHead { fin := true, opcode := WSFrameHead.PING }

def wsPong : Stream → Int × Stream := sendHead { fin := true, opcode := WSFrameHead.PONG }

/-! ## Sending -/

/-- The `payload` field for a message of `size` bytes. -/
def payloadField (size : Nat) : BitVec 7 :=
  if size < 126 then BitVec.ofNat 7 size
  else if size < 65536 then 126
  else 127

/-- `writeFixSize` calls in a row, until one fails. -/
def writeAll (s : Stream) : List Bytes → Bool × Stream
  | [] => (true, s)
  | d :: ds =>
    let w := s.writeFixSize d
    if w.1 ≤ 0 then (false, w.2) else writeAll w.2 ds

/-- The bytes of a length that does not fit into the header. -/
def lengthParts (size : Nat) : List Bytes :=
  if payloadField size = 126 then [toWire 2 size]
  else if payloadField size = 127 then [toWire 8 size]
  else []

/-- `WSSendMessage`: what it returns, the stream and the message after it.  `rand` is the value that
`rand ()` gives. -/
def wsSendMessage (s : Stream) (msg : WSFrameMessage) (client fin : Bool) (rand : BitVec 32) :
    Int × Stream × WSFrameMessage :=
  let size := msg.data.length
  let head : WSFrameHead :=
    { fin, opcode := BitVec.ofInt 4 msg.opcode, mask := client, payload := payloadField size }
  let w := writeAll s (head.toBytes :: lengthParts size)
  if w.1 then
    let mask := ByteArray.toBytes 4 rand
    -- the data of the message is masked in place
    let data := if client then msg.data.mapIdx (maskByte mask) else msg.data
    let w := writeAll w.2 ((if client then [mask] else []) ++ [data])
    if w.1 then (int32 (size + headSize), w.2, { msg with data })
    else (-1, w.2.close, { msg with data })
  else (-1, w.2.close, msg)

/-! ## Receiving -/

/-- The locals of `WSRecvMessage`. -/
structure Recv where
  stream : Stream
  opcode : Int := 0
  data : Bytes := []
  /-- The 32 bits of `cur_len`. -/
  curLen : Nat := 0
deriving DecidableEq, Repr

/-- How a pass through the loop ends. -/
inductive Pass where
  | next (st : Recv)
  | message (m : WSFrameMessage) (s : Stream)
  /-- `break`. -/
  | broke (s : Stream)
  /-- The pass writes past an end of the buffer. -/
  | overrun
deriving DecidableEq, Repr

/-- The length of the payload; `none` when it cannot be read. -/
def readLength (head : WSFrameHead) (s : Stream) : Option Nat × Stream :=
  if head.payload = 126 then
    let r := s.readFixSize 2
    if r.1 ≤ 0 then (none, r.2.2) else (some (fromWire 2 r.2.1), r.2.2)
  else if head.payload = 127 then
    let r := s.readFixSize 8
    if r.1 ≤ 0 then (none, r.2.2) else (some (fromWire 8 r.2.1), r.2.2)
  else (some head.payload.toNat, s)

/-- `char mask[4] = {0}`, filled from the stream when the frame is masked. -/
def readMask (head : WSFrameHead) (s : Stream) : Option Bytes × Stream :=
  if head.mask then
    let r := s.readFixSize 4
    if r.1 ≤ 0 then (none, r.2.2) else (some r.2.1, r.2.2)
  else (some [0, 0, 0, 0], s)

/-- `for (int i = 0; i < (int) length; ++i) data[cur_len + i] ^= mask[i % 4]`, on the bytes just
read. -/
def unmask (head : WSFrameHead) (mask : Bytes) (d : Bytes) : Bytes :=
  if head.mask then
    d.mapIdx fun i b => if (i : Int) < int32 d.length then maskByte mask i b else b
  else d

def resize (data : Bytes) (n : Nat) : Bytes := data.take n ++ List.replicate (n - data.length) 0

/-- `if (!opcode && ws_head.opcode != CONTINUE) opcode = ws_head.opcode`. -/
def takeOpcode (head : WSFrameHead) (opcode : Int) : Int :=
  if opcode = 0 ∧ head.opcode ≠ WSFrameHead.CONTINUE then head.opcode.toNat else opcode

/-- The pass for a frame of a message, from its payload on; `total` is `cur_len + length`. -/
def recvPayload (head : WSFrameHead) (length total : Nat) (mask : Bytes) (s : Stream) (st : Recv) :
    Pass :=
  let data := resize st.data total
  if data.length < widen st.curLen + length then .overrun
  else
    let r := s.readFixSize length
    if r.1 ≤ 0 then .broke r.2.2
    -- `cur_len + i` is computed as an `int`
    else if head.mask ∧ 2 ^ 31 < st.curLen + int32 length then .overrun
    else
      let data := splice data (widen st.curLen) (unmask head mask r.2.1)
      let opcode := takeOpcode head st.opcode
      if head.fin then .message { opcode, data } r.2.2
      else .next { stream := r.2.2, opcode, data, curLen := total % 2 ^ 32 }

/-- The pass for a frame of a message. -/
def recvData (client : Bool) (maxSize : UInt32) (head : WSFrameHead) (s : Stream) (st : Recv) :
    Pass :=
  if !client ∧ !head.mask then .broke s
  else match readLength head s with
    | (none, s) => .broke s
    | (some length, s) =>
      let total := (widen st.curLen + length) % 2 ^ 64
      if total ≥ maxSize.toNat then .broke s
      else match readMask head s with
        | (none, s) => .broke s
        | (some mask, s) => recvPayload head length total mask s st

/-- The branch of the loop for a header. -/
def recvOpcode (client : Bool) (maxSize : UInt32) (head : WSFrameHead) (s : Stream) (st : Recv) :
    Pass :=
  if head.opcode = WSFrameHead.PING then
    let v := wsPong s
    if v.1 ≤ 0 then .broke v.2 else .next { st with stream := v.2 }
  else if head.opcode = WSFrameHead.PONG then .next { st with stream := s }
  else if head.opcode = WSFrameHead.CONTINUE ∨ head.opcode = WSFrameHead.TEXT_FRAME ∨
      head.opcode = WSFrameHead.BIN_FRAME then
    recvData client maxSize head s st
  else .next { st with stream := s }

/-- One pass through the loop of `WSRecvMessage`. -/
def recvFrame (client : Bool) (maxSize : UInt32) (st : Recv) : Pass :=
  let r := st.stream.readFixSize headSize
  if r.1 ≤ 0 then .broke r.2.2
  else recvOpcode client maxSize (WSFrameHead.ofBytes r.2.1) r.2.2 st

/-! A pass that goes on has taken a header from the stream, so the loop ends. -/

@[simp] theorem wsPong_input (s : Stream) : (wsPong s).2.input = s.input := by
  unfold wsPong sendHead
  dsimp only
  split <;> exact s.writeFixSize_input _

theorem readLength_input_le (head : WSFrameHead) (s : Stream) :
    (readLength head s).2.input.length ≤ s.input.length := by
  unfold readLength
  dsimp only
  have h₂ := s.readFixSize_input_le 2
  have h₈ := s.readFixSize_input_le 8
  split
  · split <;> exact h₂
  · split
    · split <;> exact h₈
    · exact Nat.le_refl _

theorem readMask_input_le (head : WSFrameHead) (s : Stream) :
    (readMask head s).2.input.length ≤ s.input.length := by
  unfold readMask
  dsimp only
  have h₄ := s.readFixSize_input_le 4
  split
  · split <;> exact h₄
  · exact Nat.le_refl _

theorem recvPayload_input_le {head : WSFrameHead} {length total : Nat} {mask : Bytes} {s : Stream}
    {st st' : Recv} (h : recvPayload head length total mask s st = .next st') :
    st'.stream.input.length ≤ s.input.length := by
  unfold recvPayload at h
  have hread := s.readFixSize_input_le length
  simp only at h
  split at h
  · cases h
  · split at h
    · cases h
    · split at h
      · cases h
      · split at h
        · cases h
        · cases h
          exact hread

theorem recvData_input_le {client : Bool} {maxSize : UInt32} {head : WSFrameHead} {s : Stream}
    {st st' : Recv} (h : recvData client maxSize head s st = .next st') :
    st'.stream.input.length ≤ s.input.length := by
  unfold recvData at h
  have hlength := readLength_input_le head s
  split at h
  · cases h
  · split at h
    · cases h
    · next length s₁ hlen =>
      rw [hlen] at hlength
      have hmask := readMask_input_le head s₁
      simp only at h
      split at h
      · cases h
      · split at h
        · cases h
        · next mask s₂ hm =>
          rw [hm] at hmask
          exact (recvPayload_input_le h).trans (hmask.trans hlength)

theorem recvOpcode_input_le {client : Bool} {maxSize : UInt32} {head : WSFrameHead} {s : Stream}
    {st st' : Recv} (h : recvOpcode client maxSize head s st = .next st') :
    st'.stream.input.length ≤ s.input.length := by
  unfold recvOpcode at h
  dsimp only at h
  split at h
  · split at h
    · cases h
    · cases h
      rw [wsPong_input]
  · split at h
    · cases h
      exact Nat.le_refl _
    · split at h
      · exact recvData_input_le h
      · cases h
        exact Nat.le_refl _

theorem recvFrame_input_lt {client : Bool} {maxSize : UInt32} {st st' : Recv}
    (h : recvFrame client maxSize st = .next st') :
    st'.stream.input.length < st.stream.input.length := by
  unfold recvFrame at h
  dsimp only at h
  split at h
  · cases h
  · next hpos =>
    have hread := st.stream.readFixSize_input_lt (Nat.lt_of_not_le hpos)
    exact Nat.lt_of_le_of_lt (recvOpcode_input_le h) hread

/-- What `WSRecvMessage` returns. -/
inductive Received where
  | message (m : WSFrameMessage) (s : Stream)
  | null (s : Stream)
  | overrun
deriving DecidableEq, Repr

/-- The loop of `WSRecvMessage`, and the `close` after it. -/
def recvLoop (client : Bool) (maxSize : UInt32) (st : Recv) : Received :=
  match h : recvFrame client maxSize st with
  | .next st' =>
    have := recvFrame_input_lt h
    recvLoop client maxSize st'
  | .message m s => .message m s
  | .broke s => .null s.close
  | .overrun => .overrun
termination_by st.stream.input.length

/-- `WSRecvMessage`; `maxSize` is the value of `websocket.message.max_size`. -/
def wsRecvMessage (client : Bool) (maxSize : UInt32) (s : Stream) : Received :=
  recvLoop client maxSize { stream := s }

variable {client : Bool} {maxSize : UInt32} {st st' : Recv}

theorem recvLoop_next (h : recvFrame client maxSize st = .next st') :
    recvLoop client maxSize st = recvLoop client maxSize st' := by
  rw [recvLoop]
  split <;> simp_all

theorem recvLoop_message {m : WSFrameMessage} {s : Stream}
    (h : recvFrame client maxSize st = .message m s) :
    recvLoop client maxSize st = .message m s := by
  rw [recvLoop]
  split <;> simp_all

theorem recvLoop_broke {s : Stream} (h : recvFrame client maxSize st = .broke s) :
    recvLoop client maxSize st = .null s.close := by
  rw [recvLoop]
  split <;> simp_all

theorem recvLoop_overrun (h : recvFrame client maxSize st = .overrun) :
    recvLoop client maxSize st = .overrun := by
  rw [recvLoop]
  split <;> simp_all

/-- The states that the loop gets to from `st`. -/
def Reaches (client : Bool) (maxSize : UInt32) : Recv → Recv → Prop :=
  Relation.ReflTransGen fun st st' => recvFrame client maxSize st = .next st'

end Luwu.WebSocket
