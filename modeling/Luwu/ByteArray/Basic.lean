import Mathlib.Algebra.Group.Nat.Defs
import Luwu.Lib.Prog
import Luwu.Lib.Run
import Luwu.Lib.Splice

/-!
# The byte array

`ByteArray` keeps its bytes in a singly linked chain of blocks of `m_baseSize` bytes each.  The
chain is the list `nodes`, headed by `m_root`; a node pointer is an index into it, `none` is
`nullptr`, and `next` of the last node is `nullptr`.  `size_t` values are natural numbers: all of
them are bounded by the memory the array occupies.
-/

namespace Luwu

open Lib

inductive Endian where
  | little
  | big
deriving DecidableEq, Repr

/-- `BYTE_ORDER` of the host (x86-64). -/
def byteOrder : Endian := .little

/-- A block: the memory behind `ptr` and its `size`. -/
structure Node where
  ptr : List UInt8
  size : Nat
deriving DecidableEq, Repr

/-- `memcpy (dst, ptr + npos, len)`. -/
def Node.load (n : Node) (npos len : Nat) : List UInt8 := (n.ptr.drop npos).take len

/-- `memcpy (ptr + npos, src, |src|)`. -/
def Node.store (n : Node) (npos : Nat) (src : List UInt8) : Node :=
  { n with ptr := splice n.ptr npos src }

structure ByteArray where
  baseSize : Nat
  position : Nat
  capacity : Nat
  size : Nat
  endian : Endian
  nodes : List Node
  cur : Option Nat
  /-- What `new char[]` hands out next: fresh memory is not initialised. -/
  heap : Nat → UInt8

/-- An `iovec`: `len` bytes from offset `off` of block `block` on. -/
structure Iovec where
  block : Nat
  off : Nat
  len : Nat
deriving DecidableEq, Repr

namespace ByteArray

/-- Undefined behaviour a call can run into. -/
inductive Fault where
  | nullDeref
deriving DecidableEq, Repr

inductive Exn where
  | outOfRange (what : String)
  | lengthError (what : String)
deriving DecidableEq, Repr

abbrev M := Prog Fault Exn ByteArray

/-- The node reached from `m_root` in `i` steps along `next`. -/
def nodeAt (nodes : List Node) (i : Nat) : Option Nat :=
  if i < nodes.length then some i else none

/-- `new Node (s)`, with the heap it leaves behind. -/
def newNode (heap : Nat → UInt8) (s : Nat) : Node × (Nat → UInt8) :=
  (⟨(List.range s).map heap, s⟩, fun i => heap (i + s))

/-- `ByteArray (base_size)`. -/
def new (base : Nat) (heap : Nat → UInt8) : ByteArray :=
  let (root, heap) := newNode heap base
  { baseSize := base, position := 0, capacity := base, size := 0, endian := .big,
    nodes := [root], cur := some 0, heap }

def getBaseSize (b : ByteArray) : Nat := b.baseSize
def getReadSize (b : ByteArray) : Nat := b.size - b.position
def getPosition (b : ByteArray) : Nat := b.position
def getSize (b : ByteArray) : Nat := b.size
def getCapacity (b : ByteArray) : Nat := b.capacity - b.position
def isLittleEndian (b : ByteArray) : Bool := b.endian = .little

/-! ## The block-splitting loops

Each loop walks the blocks from the current one on; `[]` stands for the null `next` of the last
node, so that looking at its `size` is a null dereference (`none`).  The second component of a
result is the number of `m_cur = m_cur->next` steps. -/

def writeLoop : List Node → Nat → List UInt8 → Option (List Node × Nat)
  | rest, _, [] => some (rest, 0)
  | [], _, _ :: _ => none
  | n :: rest, npos, d@(_ :: _) =>
    let ncap := n.size - npos
    if d.length ≤ ncap then
      some (n.store npos d :: rest, if n.size = npos + d.length then 1 else 0)
    else
      match writeLoop rest 0 (d.drop ncap) with
      | none => none
      | some (rest', k) => some (n.store npos (d.take ncap) :: rest', k + 1)

def readLoop : List Node → Nat → Nat → Option (List UInt8 × Nat)
  | _, _, 0 => some ([], 0)
  | [], _, _ + 1 => none
  | n :: rest, npos, size@(_ + 1) =>
    let ncap := n.size - npos
    if size ≤ ncap then
      some (n.load npos size, if n.size = npos + size then 1 else 0)
    else
      match readLoop rest 0 (size - ncap) with
      | none => none
      | some (d, k) => some (n.load npos ncap ++ d, k + 1)

/-- The loop that fills the `iovec` vector; `i` is the index of the current block. -/
def bufferLoop : List Node → Nat → Nat → Nat → Option (List Iovec)
  | _, _, _, 0 => some []
  | [], _, _, _ + 1 => none
  | n :: rest, i, npos, len@(_ + 1) =>
    let ncap := n.size - npos
    if len ≤ ncap then
      some [⟨i, npos, len⟩]
    else
      match bufferLoop rest (i + 1) 0 (len - ncap) with
      | none => none
      | some iovs => some (⟨i, npos, ncap⟩ :: iovs)

/-- The walk of `setPosition`: the number of nodes it steps over. -/
def seekLoop : List Node → Nat → Option Nat
  | [], _ => none
  | n :: rest, pos =>
    if n.size < pos then
      (seekLoop rest (pos - n.size)).map (· + 1)
    else if pos = n.size then some 1 else some 0

/-- The loop of `writeToFile`.  `len` is an `ssize_t`: it is negative when fewer bytes are left
than the position is into its block, and `ofs.write` of a negative count writes nothing. -/
def fileLoop (base : Nat) : List Node → Nat → Nat → Option (List UInt8)
  | _, _, 0 => some []
  | [], _, _ + 1 => none
  | n :: rest, pos, readSize@(_ + 1) =>
    let diff := pos % base
    let len : Int := ((if base < readSize then base else readSize : Nat) : Int) - diff
    match fileLoop base rest (pos + len).toNat (readSize - len).toNat with
    | none => none
    | some out => some (n.load diff len.toNat ++ out)

/-! ## Raw access -/

/-- One round of the growth loop: `tmp->next = new Node (m_baseSize); m_capacity += m_baseSize`. -/
def addNode (b : ByteArray) : ByteArray :=
  let (n, heap) := newNode b.heap b.baseSize
  { b with nodes := b.nodes ++ [n], capacity := b.capacity + b.baseSize, heap }

def addCapacity (b : ByteArray) (size : Nat) : ByteArray :=
  let old := b.getCapacity
  if size ≤ old then b
  else
    let size := size - old
    let count := size / b.baseSize + if size % b.baseSize ≠ 0 then 1 else 0
    let b' := addNode^[count] b
    if old = 0 then { b' with cur := nodeAt b'.nodes b.nodes.length } else b'

def write (buf : List UInt8) : M Unit := fun b =>
  if buf = [] then .ok () b
  else
    let b := b.addCapacity buf.length
    match b.cur with
    | none => .fault .nullDeref
    | some i =>
      match writeLoop (b.nodes.drop i) (b.position % b.baseSize) buf with
      | none => .fault .nullDeref
      | some (blocks, k) =>
        let nodes := b.nodes.take i ++ blocks
        let position := b.position + buf.length
        .ok () { b with nodes, cur := nodeAt nodes (i + k), position, size := max b.size position }

def read (size : Nat) : M (List UInt8) := fun b =>
  if b.getReadSize < size then .thrown (.outOfRange "not enough length") b
  else
    match b.cur with
    | none => .fault .nullDeref
    | some i =>
      match readLoop (b.nodes.drop i) (b.position % b.baseSize) size with
      | none => .fault .nullDeref
      | some (d, k) =>
        .ok d { b with position := b.position + size, cur := nodeAt b.nodes (i + k) }

/-- `read (buf, size, position) const`. -/
def readAt (size position : Nat) : M (List UInt8) := fun b =>
  if b.getReadSize < size then .thrown (.outOfRange "not enough length") b
  else
    match b.cur with
    | none => .fault .nullDeref
    | some i =>
      match readLoop (b.nodes.drop i) (position % b.baseSize) size with
      | none => .fault .nullDeref
      | some (d, _) => .ok d b

def setPosition (pos : Nat) : M Unit := fun b =>
  if b.capacity < pos then .thrown (.outOfRange "set_position out of range") b
  else
    match seekLoop b.nodes pos with
    | none => .fault .nullDeref
    | some k => .ok () { b with position := pos, size := max b.size pos, cur := nodeAt b.nodes k }

/-- `clear` keeps the first block only. -/
def clear : M Unit := fun b =>
  .ok () { b with position := 0, size := 0, capacity := b.baseSize, nodes := b.nodes.take 1,
                  cur := nodeAt (b.nodes.take 1) 0 }

def setLittleEndian (v : Bool) : M Unit :=
  Prog.modify fun b => { b with endian := if v then .little else .big }

def toString : M (List UInt8) := fun b =>
  if b.getReadSize = 0 then .ok [] b
  else readAt b.getReadSize b.position b

def getReadBuffers (len : Nat) : M (List Iovec) := fun b =>
  let len := if b.getReadSize < len then b.getReadSize else len
  if len = 0 then .ok [] b
  else
    match b.cur with
    | none => .fault .nullDeref
    | some i =>
      match bufferLoop (b.nodes.drop i) i (b.position % b.baseSize) len with
      | none => .fault .nullDeref
      | some iovs => .ok iovs b

/-- `getReadBuffers (buffers, len, position)`: walks from `m_root`. -/
def getReadBuffersAt (len position : Nat) : M (List Iovec) := fun b =>
  let len := if b.getReadSize < len then b.getReadSize else len
  if len = 0 then .ok [] b
  else
    let count := position / b.baseSize
    match bufferLoop (b.nodes.drop count) count (position % b.baseSize) len with
    | none => .fault .nullDeref
    | some iovs => .ok iovs b

def getWriteBuffers (len : Nat) : M (List Iovec) := fun b =>
  if len = 0 then .ok [] b
  else
    let b := b.addCapacity len
    match b.cur with
    | none => .fault .nullDeref
    | some i =>
      match bufferLoop (b.nodes.drop i) i (b.position % b.baseSize) len with
      | none => .fault .nullDeref
      | some iovs => .ok iovs b

/-- `writeToFile` on a file that could be opened; the result is what the file then holds. -/
def writeToFile : M (List UInt8) := fun b =>
  if b.getReadSize = 0 then .ok [] b
  else
    match b.cur with
    | none => .fault .nullDeref
    | some i =>
      match fileLoop b.baseSize (b.nodes.drop i) b.position b.getReadSize with
      | none => .fault .nullDeref
      | some out => .ok out b

/-- `readFromFile`, given what the successive `ifs.read` calls deliver up to the end of file. -/
def readFromFile (reads : List (List UInt8)) : M Unit :=
  reads.forM write

/-! ## Fixed-width integers -/

/-- The bytes of a value in host order. -/
def toBytes (n : Nat) (v : BitVec (8 * n)) : List UInt8 :=
  (List.range n).map fun i => UInt8.ofNat (v.toNat / 256 ^ i)

/-- The value stored in host order in `d`. -/
def ofBytes : List UInt8 → Nat
  | [] => 0
  | b :: d => b.toNat + 256 * ofBytes d

def byteSwap (n : Nat) (v : BitVec (8 * n)) : BitVec (8 * n) :=
  BitVec.ofNat _ (ofBytes (toBytes n v).reverse)

/-- `if (m_endian != BYTE_ORDER) val = byteSwap (val); write (&val, sizeof (val))`. -/
def writeFix (n : Nat) (val : BitVec (8 * n)) : M Unit := do
  let endian ← Prog.gets (·.endian)
  write (toBytes n (if endian ≠ byteOrder then byteSwap n val else val))

/-- `read (&v, sizeof (v)); return m_endian == BYTE_ORDER ? v : byteSwap (v)`. -/
def readFix (n : Nat) : M (BitVec (8 * n)) := do
  let d ← read n
  let endian ← Prog.gets (·.endian)
  let v := BitVec.ofNat (8 * n) (ofBytes d)
  pure (if endian = byteOrder then v else byteSwap n v)

-- The one-byte members write and read the byte as it is.
def writeFixInt8 (val : BitVec 8) : M Unit := write [UInt8.ofBitVec val]
def writeFixUint8 (val : BitVec 8) : M Unit := write [UInt8.ofBitVec val]
def writeFixInt16 (val : BitVec 16) : M Unit := writeFix 2 val
def writeFixUint16 (val : BitVec 16) : M Unit := writeFix 2 val
def writeFixInt32 (val : BitVec 32) : M Unit := writeFix 4 val
def writeFixUint32 (val : BitVec 32) : M Unit := writeFix 4 val
def writeFixInt64 (val : BitVec 64) : M Unit := writeFix 8 val
def writeFixUint64 (val : BitVec 64) : M Unit := writeFix 8 val

def readFixUint8 : M (BitVec 8) := do
  let d ← read 1
  pure (BitVec.ofNat 8 (ofBytes d))
def readFixInt8 : M (BitVec 8) := readFixUint8
def readFixInt16 : M (BitVec 16) := readFix 2
def readFixUint16 : M (BitVec 16) := readFix 2
def readFixInt32 : M (BitVec 32) := readFix 4
def readFixUint32 : M (BitVec 32) := readFix 4
def readFixInt64 : M (BitVec 64) := readFix 8
def readFixUint64 : M (BitVec 64) := readFix 8

/-! ## Variable-length integers -/

/-- `tmp[i++] = (val & 0x7f) | 0x80; val >>= 7` until `val < 0x80`, then the last byte. -/
def varint (val : Nat) : List UInt8 :=
  if val < 0x80 then [UInt8.ofNat val]
  else UInt8.ofNat (val % 0x80 + 0x80) :: varint (val / 0x80)
termination_by val
decreasing_by omega

def writeUint32 (val : BitVec 32) : M Unit := write (varint val.toNat)
def writeUint64 (val : BitVec 64) : M Unit := write (varint val.toNat)

/-- `EncodeZigzag32` and `EncodeZigzag64`, with the signed arithmetic taken modulo `2 ^ w`. -/
def encodeZigzag {w : Nat} (val : BitVec w) : BitVec w :=
  if val.slt 0 then (-val) * 2 - 1 else val * 2

def decodeZigzag {w : Nat} (val : BitVec w) : BitVec w :=
  (val >>> 1) ^^^ (-(val &&& 1))

def writeInt32 (val : BitVec 32) : M Unit := writeUint32 (encodeZigzag val)
def writeInt64 (val : BitVec 64) : M Unit := writeUint64 (encodeZigzag val)

/-- The loop `for (int i = 0; i < w; i += 7)` of `readUint32` and `readUint64` over its shifts. -/
def readVarLoop {w : Nat} : List Nat → BitVec w → M (BitVec w)
  | [], result => pure result
  | i :: is, result => do
    let b ← readFixUint8
    if b < 0x80 then
      pure (result ||| (b.setWidth w <<< i))
    else
      readVarLoop is (result ||| ((b &&& 0x7f).setWidth w <<< i))

def readUint32 : M (BitVec 32) := readVarLoop [0, 7, 14, 21, 28] 0
def readUint64 : M (BitVec 64) := readVarLoop [0, 7, 14, 21, 28, 35, 42, 49, 56, 63] 0

def readInt32 : M (BitVec 32) := do
  let v ← readUint32
  pure (decodeZigzag v)
def readInt64 : M (BitVec 64) := do
  let v ← readUint64
  pure (decodeZigzag v)

-- Floating-point numbers are their bit patterns: the members copy them with `memcpy`.
def writeFloat (val : BitVec 32) : M Unit := writeFixUint32 val
def writeDouble (val : BitVec 64) : M Unit := writeFixUint64 val
def readFloat : M (BitVec 32) := readFixUint32
def readDouble : M (BitVec 64) := readFixUint64

/-! ## Strings -/

def writeStringFix16 (val : List UInt8) : M Unit := do
  writeFixUint16 (BitVec.ofNat 16 val.length)
  write val

def writeStringFix32 (val : List UInt8) : M Unit := do
  writeFixUint32 (BitVec.ofNat 32 val.length)
  write val

def writeStringFix64 (val : List UInt8) : M Unit := do
  writeFixUint64 (BitVec.ofNat 64 val.length)
  write val

def writeStringVint (val : List UInt8) : M Unit := do
  writeUint64 (BitVec.ofNat 64 val.length)
  write val

def writeStringWithoutLength (val : List UInt8) : M Unit := write val

/-- `std::string::max_size ()` of libstdc++ on a 64-bit machine. -/
def maxStringSize : Nat := 2 ^ 62 - 1

/-- `std::string buf; buf.resize (len); read (&buf[0], len); return buf`. -/
def readStringBody (len : Nat) : M (List UInt8) :=
  if maxStringSize < len then Prog.throw (.lengthError "basic_string::_M_replace_aux")
  else read len

def readStringFix16 : M (List UInt8) := do
  let len ← readFixUint16
  readStringBody len.toNat

def readStringFix32 : M (List UInt8) := do
  let len ← readFixUint32
  readStringBody len.toNat

def readStringFix64 : M (List UInt8) := do
  let len ← readFixUint64
  readStringBody len.toNat

def readStringVint : M (List UInt8) := do
  let len ← readUint64
  readStringBody len.toNat

/-! ## The public interface -/

/-- A call of a public member function with its arguments. -/
inductive Op where
  | writeFixInt8 (val : BitVec 8)
  | writeFixUint8 (val : BitVec 8)
  | writeFixInt16 (val : BitVec 16)
  | writeFixUint16 (val : BitVec 16)
  | writeFixInt32 (val : BitVec 32)
  | writeFixUint32 (val : BitVec 32)
  | writeFixInt64 (val : BitVec 64)
  | writeFixUint64 (val : BitVec 64)
  | writeInt32 (val : BitVec 32)
  | writeUint32 (val : BitVec 32)
  | writeInt64 (val : BitVec 64)
  | writeUint64 (val : BitVec 64)
  | writeFloat (val : BitVec 32)
  | writeDouble (val : BitVec 64)
  | writeStringFix16 (val : List UInt8)
  | writeStringFix32 (val : List UInt8)
  | writeStringFix64 (val : List UInt8)
  | writeStringVint (val : List UInt8)
  | writeStringWithoutLength (val : List UInt8)
  | readFixInt8
  | readFixUint8
  | readFixInt16
  | readFixUint16
  | readFixInt32
  | readFixUint32
  | readFixInt64
  | readFixUint64
  | readInt32
  | readUint32
  | readInt64
  | readUint64
  | readFloat
  | readDouble
  | readStringFix16
  | readStringFix32
  | readStringFix64
  | readStringVint
  | clear
  | write (buf : List UInt8)
  | read (size : Nat)
  | readAt (size position : Nat)
  | writeToFile
  | readFromFile (reads : List (List UInt8))
  | getBaseSize
  | getReadSize
  | getPosition
  | setPosition (pos : Nat)
  | isLittleEndian
  | setLittleEndian (v : Bool)
  | getSize
  | toString
  | getReadBuffers (len : Nat)
  | getReadBuffersAt (len position : Nat)
  | getWriteBuffers (len : Nat)

/-- Forget the value a call returns. -/
def drop {α : Type} (m : M α) : M Unit := do
  let _ ← m
  pure ()

/-- The effect of a call on the array. -/
def exec : Op → M Unit
  | .writeFixInt8 v => ByteArray.writeFixInt8 v
  | .writeFixUint8 v => ByteArray.writeFixUint8 v
  | .writeFixInt16 v => ByteArray.writeFixInt16 v
  | .writeFixUint16 v => ByteArray.writeFixUint16 v
  | .writeFixInt32 v => ByteArray.writeFixInt32 v
  | .writeFixUint32 v => ByteArray.writeFixUint32 v
  | .writeFixInt64 v => ByteArray.writeFixInt64 v
  | .writeFixUint64 v => ByteArray.writeFixUint64 v
  | .writeInt32 v => ByteArray.writeInt32 v
  | .writeUint32 v => ByteArray.writeUint32 v
  | .writeInt64 v => ByteArray.writeInt64 v
  | .writeUint64 v => ByteArray.writeUint64 v
  | .writeFloat v => ByteArray.writeFloat v
  | .writeDouble v => ByteArray.writeDouble v
  | .writeStringFix16 v => ByteArray.writeStringFix16 v
  | .writeStringFix32 v => ByteArray.writeStringFix32 v
  | .writeStringFix64 v => ByteArray.writeStringFix64 v
  | .writeStringVint v => ByteArray.writeStringVint v
  | .writeStringWithoutLength v => ByteArray.writeStringWithoutLength v
  | .readFixInt8 => drop ByteArray.readFixInt8
  | .readFixUint8 => drop ByteArray.readFixUint8
  | .readFixInt16 => drop ByteArray.readFixInt16
  | .readFixUint16 => drop ByteArray.readFixUint16
  | .readFixInt32 => drop ByteArray.readFixInt32
  | .readFixUint32 => drop ByteArray.readFixUint32
  | .readFixInt64 => drop ByteArray.readFixInt64
  | .readFixUint64 => drop ByteArray.readFixUint64
  | .readInt32 => drop ByteArray.readInt32
  | .readUint32 => drop ByteArray.readUint32
  | .readInt64 => drop ByteArray.readInt64
  | .readUint64 => drop ByteArray.readUint64
  | .readFloat => drop ByteArray.readFloat
  | .readDouble => drop ByteArray.readDouble
  | .readStringFix16 => drop ByteArray.readStringFix16
  | .readStringFix32 => drop ByteArray.readStringFix32
  | .readStringFix64 => drop ByteArray.readStringFix64
  | .readStringVint => drop ByteArray.readStringVint
  | .clear => ByteArray.clear
  | .write buf => ByteArray.write buf
  | .read size => drop (ByteArray.read size)
  | .readAt size position => drop (ByteArray.readAt size position)
  | .writeToFile => drop ByteArray.writeToFile
  | .readFromFile reads => ByteArray.readFromFile reads
  | .getBaseSize => drop (Prog.gets ByteArray.getBaseSize)
  | .getReadSize => drop (Prog.gets ByteArray.getReadSize)
  | .getPosition => drop (Prog.gets ByteArray.getPosition)
  | .setPosition pos => ByteArray.setPosition pos
  | .isLittleEndian => drop (Prog.gets ByteArray.isLittleEndian)
  | .setLittleEndian v => ByteArray.setLittleEndian v
  | .getSize => drop (Prog.gets ByteArray.getSize)
  | .toString => drop ByteArray.toString
  | .getReadBuffers len => drop (ByteArray.getReadBuffers len)
  | .getReadBuffersAt len position => drop (ByteArray.getReadBuffersAt len position)
  | .getWriteBuffers len => drop (ByteArray.getWriteBuffers len)

/-- One call by a client that catches what the call throws. -/
def step (b : ByteArray) (op : Op) : Option ByteArray := (exec op b).state?

end ByteArray

end Luwu
