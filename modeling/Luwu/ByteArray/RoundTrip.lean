import Luwu.ByteArray.Flat
import Luwu.ByteArray.Integers

/-!
# Values that are written and read back

Every number is written as a byte string that says where it ends, so that reads with the same types
and the same byte order give the numbers back.  A string is written with its length in front; the
length is narrowed to the width of its format, the string is not.
-/

namespace Luwu.ByteArray

open Lib

/-! ## Encodings -/

/-- The bytes that `writeFix` writes. -/
def fixBytes (endian : Endian) (n : Nat) (v : BitVec (8 * n)) : List UInt8 :=
  toBytes n (if endian ≠ byteOrder then byteSwap n v else v)

@[simp] theorem length_fixBytes (endian : Endian) (n : Nat) (v : BitVec (8 * n)) :
    (fixBytes endian n v).length = n := length_toBytes n _

theorem ofNat_ofBytes_toBytes (n : Nat) (v : BitVec (8 * n)) :
    BitVec.ofNat (8 * n) (ofBytes (toBytes n v)) = v := by
  rw [ofBytes_toBytes, BitVec.ofNat_toNat, BitVec.setWidth_eq]

theorem fixValue_fixBytes (endian : Endian) (n : Nat) (v : BitVec (8 * n)) :
    fixValue endian n (fixBytes endian n v) = v := by
  unfold fixValue fixBytes
  by_cases he : endian = byteOrder
  · rw [if_pos he, if_neg (not_not.mpr he), ofNat_ofBytes_toBytes]
  · rw [if_neg he, if_pos he, ofNat_ofBytes_toBytes, byteSwap_byteSwap]

/-- The shifts `i`, `i + 7`, and so on: `k` of them. -/
def shifts (k i : Nat) : List Nat :=
  match k with
  | 0 => []
  | k + 1 => i :: shifts k (i + 7)

/-- Seven more bits above the `i` bits that are there. -/
theorem or_shift {w i r m : Nat} (hr : r < 2 ^ i) (x : BitVec 8) (hx : x.toNat = m) :
    BitVec.ofNat w r ||| x.setWidth w <<< i = BitVec.ofNat w (r + m * 2 ^ i) := by
  apply BitVec.eq_of_toNat_eq
  rw [BitVec.toNat_or, BitVec.toNat_shiftLeft, BitVec.toNat_setWidth, BitVec.toNat_ofNat,
    BitVec.toNat_ofNat, hx]
  have hsum : r + m * 2 ^ i = m <<< i ||| r := by
    rw [← Nat.shiftLeft_add_eq_or_of_lt hr, Nat.shiftLeft_eq, Nat.add_comm]
  have hshift : (m % 2 ^ w) <<< i % 2 ^ w = m <<< i % 2 ^ w := by
    rw [Nat.shiftLeft_eq, Nat.shiftLeft_eq, Nat.mod_mul_mod]
  rw [hsum, hshift, Nat.or_mod_two_pow, Nat.or_comm]

theorem decodeVar_last {w i r n : Nat} (hr : r < 2 ^ i) (hn : n < 0x80) (is : List Nat)
    (rest : List UInt8) :
    decodeVar (i :: is) (BitVec.ofNat w r) (varint n ++ rest) =
      some (BitVec.ofNat w (r + n * 2 ^ i), (varint n).length) := by
  have hbyte : (UInt8.ofNat n).toBitVec.toNat = n := by
    change n % 256 = n
    omega
  have hlt : (UInt8.ofNat n).toBitVec < 0x80 := by
    rw [BitVec.lt_def, hbyte]
    exact hn
  rw [varint, if_pos hn, List.singleton_append, decodeVar, if_pos hlt, or_shift hr _ hbyte]
  rfl

/-- **The bytes of a variable-length integer are decoded to it**, whatever follows them.  The `i`
lowest bits are in `r` already. -/
theorem decodeVar_varint {w k i r n : Nat} (hr : r < 2 ^ i) (hn : n < 2 ^ (7 * (k + 1)))
    (rest : List UInt8) :
    decodeVar (shifts (k + 1) i) (BitVec.ofNat w r) (varint n ++ rest) =
      some (BitVec.ofNat w (r + n * 2 ^ i), (varint n).length) := by
  induction k generalizing i r n with
  | zero => exact decodeVar_last hr hn _ rest
  | succ k ih =>
    by_cases hlast : n < 0x80
    · exact decodeVar_last hr hlast _ rest
    · -- a byte with the continuation bit, and seven bits of the number in it
      have hmod : n % 0x80 < 0x80 := Nat.mod_lt _ (by decide)
      have hbyte : (UInt8.ofNat (n % 0x80 + 0x80)).toBitVec.toNat = n % 0x80 + 0x80 := by
        change (n % 0x80 + 0x80) % 256 = _
        omega
      have hge : ¬ (UInt8.ofNat (n % 0x80 + 0x80)).toBitVec < 0x80 := by
        rw [BitVec.lt_def, hbyte]
        exact Nat.not_lt.mpr (Nat.le_add_left _ _)
      have hbits : ((UInt8.ofNat (n % 0x80 + 0x80)).toBitVec &&& 0x7f).toNat = n % 0x80 := by
        rw [BitVec.toNat_and, hbyte]
        change (n % 0x80 + 0x80) &&& (2 ^ 7 - 1) = _
        rw [Nat.and_two_pow_sub_one_eq_mod]
        omega
      have hr' : r + n % 0x80 * 2 ^ i < 2 ^ (i + 7) := by
        have hle : (n % 0x80 + 1) * 2 ^ i ≤ 0x80 * 2 ^ i := Nat.mul_le_mul_right _ hmod
        rw [Nat.pow_add, Nat.mul_comm (2 ^ i)]
        rw [Nat.add_mul, Nat.one_mul] at hle
        omega
      have hn' : n / 0x80 < 2 ^ (7 * (k + 1)) := by
        rw [Nat.div_lt_iff_lt_mul (by decide)]
        rwa [Nat.mul_add 7 (k + 1) 1, Nat.pow_add] at hn
      have hsum : r + n % 0x80 * 2 ^ i + n / 0x80 * 2 ^ (i + 7) = r + n * 2 ^ i := by
        rw [Nat.pow_add, Nat.add_assoc, Nat.mul_comm (2 ^ i), ← Nat.mul_assoc, ← Nat.add_mul]
        congr 2
        omega
      rw [varint, if_neg hlast, List.cons_append, shifts, decodeVar, if_neg hge,
        or_shift hr _ hbits, ih hr' hn', hsum]
      rfl

theorem toNat_two_mul {w : Nat} (v : BitVec (w + 1)) :
    (v * 2).toNat = v.toNat * 2 % 2 ^ (w + 1) := by
  rw [BitVec.toNat_mul]
  change v.toNat * (2 % 2 ^ (w + 1)) % 2 ^ (w + 1) = _
  rw [Nat.mul_mod_mod]

theorem toNat_one {w : Nat} : (1 : BitVec (w + 1)).toNat = 1 :=
  Nat.mod_eq_of_lt (Nat.one_lt_two_pow (Nat.succ_ne_zero w))

theorem decodeZigzag_even {w m : Nat} {z : BitVec (w + 1)} (hz : z.toNat = 2 * m) :
    (decodeZigzag z).toNat = m := by
  have hbit : z &&& 1 = 0#(w + 1) := by
    apply BitVec.eq_of_toNat_eq
    rw [BitVec.toNat_and, toNat_one, hz, Nat.and_one_is_mod, Nat.mul_mod_right]
    rfl
  rw [decodeZigzag, hbit, BitVec.neg_zero, BitVec.xor_zero, BitVec.toNat_ushiftRight, hz,
    Nat.shiftRight_one]
  omega

theorem decodeZigzag_odd {w m : Nat} {z : BitVec (w + 1)} (hz : z.toNat = 2 * m + 1) :
    (decodeZigzag z).toNat = 2 ^ (w + 1) - 1 - m := by
  have hbit : z &&& 1 = 1 := by
    apply BitVec.eq_of_toNat_eq
    rw [BitVec.toNat_and, toNat_one, hz, Nat.and_one_is_mod]
    omega
  have hones : (-1 : BitVec (w + 1)) = BitVec.allOnes (w + 1) := BitVec.neg_one_eq_allOnes
  rw [decodeZigzag, hbit, hones, BitVec.xor_allOnes, BitVec.toNat_not, BitVec.toNat_ushiftRight,
    hz, Nat.shiftRight_one]
  omega

theorem decodeZigzag_encodeZigzag {w : Nat} (v : BitVec (w + 1)) :
    decodeZigzag (encodeZigzag v) = v := by
  have hv := v.isLt
  have hpow : 2 ^ (w + 1) = 2 * 2 ^ w := Nat.pow_succ'
  have hsign : v.slt 0 = decide (2 ^ w ≤ v.toNat) :=
    BitVec.slt_zero_eq_msb.trans (BitVec.msb_eq_decide v)
  apply BitVec.eq_of_toNat_eq
  unfold encodeZigzag
  rw [hsign]
  by_cases hge : 2 ^ w ≤ v.toNat
  · rw [if_pos (decide_eq_true hge)]
    -- the distance to `2 ^ (w + 1)` is at least one and at most `2 ^ w`
    have hneg : (-v).toNat = 2 ^ (w + 1) - v.toNat := by
      rw [BitVec.toNat_neg]
      exact Nat.mod_eq_of_lt (by omega)
    have henc : (-v * 2 - 1).toNat = 2 * (2 ^ (w + 1) - v.toNat - 1) + 1 := by
      rw [BitVec.toNat_sub, toNat_two_mul, toNat_one, hneg]
      by_cases hmin : v.toNat = 2 ^ w
      · rw [hmin, hpow, show 2 * 2 ^ w - 2 ^ w = 2 ^ w by omega, Nat.mul_comm (2 ^ w) 2,
          Nat.mod_self, Nat.add_zero]
        exact (Nat.mod_eq_of_lt (by omega)).trans (by omega)
      · rw [Nat.mod_eq_of_lt (show (2 ^ (w + 1) - v.toNat) * 2 < 2 ^ (w + 1) by omega)]
        rw [show 2 ^ (w + 1) - 1 + (2 ^ (w + 1) - v.toNat) * 2 =
          2 ^ (w + 1) + ((2 ^ (w + 1) - v.toNat) * 2 - 1) by omega, Nat.add_mod_left]
        exact (Nat.mod_eq_of_lt (by omega)).trans (by omega)
    rw [decodeZigzag_odd henc]
    omega
  · rw [if_neg (by simpa using hge)]
    have henc : (v * 2).toNat = 2 * v.toNat := by
      rw [toNat_two_mul, Nat.mod_eq_of_lt (by omega), Nat.mul_comm]
    rw [decodeZigzag_even henc]

/-! ## One value -/

theorem write_ok {b : ByteArray} (h : Inv b) (d : List UInt8) :
    ∃ b', write d b = .ok () b' ∧ Inv b' ∧ b'.abs = b.abs.write d ∧ b'.endian = b.endian := by
  obtain ⟨b', hrun, hinv, habs⟩ := write_abs h d
  refine ⟨b', hrun, hinv, habs, ?_⟩
  by_cases hd : d = []
  · subst hd
    rw [write_nil] at hrun
    cases hrun
    rfl
  · obtain ⟨b'', -, hrun', -, -, hend, -⟩ := write_spec h hd
    rw [hrun] at hrun'
    cases hrun'
    exact hend

/-- `write` and `read` agree on the bytes that stand for the value `a`. -/
structure Codec {α : Type} (write : M Unit) (read : M α) (a : α) (bytes : Endian → List UInt8) :
    Prop where
  writes : ∀ b, Inv b → ∃ b', write b = .ok () b' ∧ Inv b' ∧
    b'.abs = b.abs.write (bytes b.endian) ∧ b'.endian = b.endian
  reads : ∀ b rest, Inv b → b.unread = bytes b.endian ++ rest →
    read b = .ok a (b.advance (bytes b.endian).length)

/-- Where the unread bytes begin with `d`, the reader may go on behind them. -/
theorem advance_unread {b : ByteArray} (h : Inv b) {d rest : List UInt8}
    (hu : b.unread = d ++ rest) :
    Inv (b.advance d.length) ∧ (b.advance d.length).unread = rest := by
  constructor
  · exact advance_inv_of_le h (by rw [hu, List.length_append]; exact Nat.le_add_right _ _)
  · rw [unread_advance, hu, List.drop_left]

theorem fix_codec {n : Nat} (hn : 0 < n) (v : BitVec (8 * n)) :
    Codec (writeFix n v) (readFix n) v fun endian => fixBytes endian n v where
  writes b h := write_ok h _
  reads b rest h hu := by
    have hlen : (fixBytes b.endian n v).length = n := length_fixBytes b.endian n v
    rw [readFix_ok h hn (by rw [hu, List.length_append, hlen]; exact Nat.le_add_right _ _), hu,
      hlen, List.take_left' hlen, fixValue_fixBytes]

theorem byte_codec (v : BitVec 8) :
    Codec (writeFixUint8 v) readFixUint8 v fun _ => [UInt8.ofBitVec v] where
  writes _ h := write_ok h _
  reads _ _ h hu := readFixUint8_ok h hu

theorem uint32_codec (v : BitVec 32) :
    Codec (writeUint32 v) readUint32 v fun _ => varint v.toNat where
  writes b h := write_ok h _
  reads b rest h hu := by
    have hdec := decodeVar_varint (w := 32) (k := 4) (i := 0) (r := 0) Nat.one_pos
      (Nat.lt_trans v.isLt (by decide)) rest
    rw [← hu, Nat.zero_add, Nat.pow_zero, Nat.mul_one, BitVec.ofNat_toNat, BitVec.setWidth_eq]
      at hdec
    exact (readVarLoop_eq h _ _).1 _ _ hdec

theorem uint64_codec (v : BitVec 64) :
    Codec (writeUint64 v) readUint64 v fun _ => varint v.toNat where
  writes b h := write_ok h _
  reads b rest h hu := by
    have hdec := decodeVar_varint (w := 64) (k := 9) (i := 0) (r := 0) Nat.one_pos
      (Nat.lt_trans v.isLt (by decide)) rest
    rw [← hu, Nat.zero_add, Nat.pow_zero, Nat.mul_one, BitVec.ofNat_toNat, BitVec.setWidth_eq]
      at hdec
    exact (readVarLoop_eq h _ _).1 _ _ hdec

theorem int32_codec (v : BitVec 32) :
    Codec (writeInt32 v) readInt32 v fun _ => varint (encodeZigzag v).toNat where
  writes := (uint32_codec (encodeZigzag v)).writes
  reads b rest h hu := by
    rw [readInt32, Prog.bind_apply, (uint32_codec (encodeZigzag v)).reads b rest h hu,
      Outcome.bind_ok, Prog.pure_apply, decodeZigzag_encodeZigzag]

theorem int64_codec (v : BitVec 64) :
    Codec (writeInt64 v) readInt64 v fun _ => varint (encodeZigzag v).toNat where
  writes := (uint64_codec (encodeZigzag v)).writes
  reads b rest h hu := by
    rw [readInt64, Prog.bind_apply, (uint64_codec (encodeZigzag v)).reads b rest h hu,
      Outcome.bind_ok, Prog.pure_apply, decodeZigzag_encodeZigzag]

theorem Codec.map {α β : Type} {write : M Unit} {read : M α} {a : α} {bytes : Endian → List UInt8}
    (h : Codec write read a bytes) (f : α → β) :
    Codec write (do let x ← read; pure (f x)) (f a) bytes where
  writes := h.writes
  reads b rest hb hu := by
    rw [Prog.bind_apply, h.reads b rest hb hu]
    rfl

/-! ## Sequences of numbers -/

/-- A call of one of the members that write a number. -/
inductive Num where
  | fixInt8 (v : BitVec 8)
  | fixUint8 (v : BitVec 8)
  | fixInt16 (v : BitVec 16)
  | fixUint16 (v : BitVec 16)
  | fixInt32 (v : BitVec 32)
  | fixUint32 (v : BitVec 32)
  | fixInt64 (v : BitVec 64)
  | fixUint64 (v : BitVec 64)
  | int32 (v : BitVec 32)
  | uint32 (v : BitVec 32)
  | int64 (v : BitVec 64)
  | uint64 (v : BitVec 64)
  | float (v : BitVec 32)
  | double (v : BitVec 64)
deriving DecidableEq, Repr

def Num.write : Num → M Unit
  | fixInt8 v => writeFixInt8 v
  | fixUint8 v => writeFixUint8 v
  | fixInt16 v => writeFixInt16 v
  | fixUint16 v => writeFixUint16 v
  | fixInt32 v => writeFixInt32 v
  | fixUint32 v => writeFixUint32 v
  | fixInt64 v => writeFixInt64 v
  | fixUint64 v => writeFixUint64 v
  | int32 v => writeInt32 v
  | uint32 v => writeUint32 v
  | int64 v => writeInt64 v
  | uint64 v => writeUint64 v
  | float v => writeFloat v
  | double v => writeDouble v

/-- The read that corresponds to the write; what has been written is not looked at. -/
def Num.read : Num → M Num
  | fixInt8 _ => do let v ← readFixInt8; pure (fixInt8 v)
  | fixUint8 _ => do let v ← readFixUint8; pure (fixUint8 v)
  | fixInt16 _ => do let v ← readFixInt16; pure (fixInt16 v)
  | fixUint16 _ => do let v ← readFixUint16; pure (fixUint16 v)
  | fixInt32 _ => do let v ← readFixInt32; pure (fixInt32 v)
  | fixUint32 _ => do let v ← readFixUint32; pure (fixUint32 v)
  | fixInt64 _ => do let v ← readFixInt64; pure (fixInt64 v)
  | fixUint64 _ => do let v ← readFixUint64; pure (fixUint64 v)
  | int32 _ => do let v ← readInt32; pure (int32 v)
  | uint32 _ => do let v ← readUint32; pure (uint32 v)
  | int64 _ => do let v ← readInt64; pure (int64 v)
  | uint64 _ => do let v ← readUint64; pure (uint64 v)
  | float _ => do let v ← readFloat; pure (float v)
  | double _ => do let v ← readDouble; pure (double v)

/-- The bytes of a number. -/
def Num.bytes (endian : Endian) : Num → List UInt8
  | fixInt8 v | fixUint8 v => [UInt8.ofBitVec v]
  | fixInt16 v | fixUint16 v => fixBytes endian 2 v
  | fixInt32 v | fixUint32 v | float v => fixBytes endian 4 v
  | fixInt64 v | fixUint64 v | double v => fixBytes endian 8 v
  | int32 v => varint (encodeZigzag v).toNat
  | uint32 v => varint v.toNat
  | int64 v => varint (encodeZigzag v).toNat
  | uint64 v => varint v.toNat

theorem Num.codec (x : Num) : Codec x.write x.read x fun endian => x.bytes endian := by
  cases x with
  | fixInt8 v => exact (byte_codec v).map fixInt8
  | fixUint8 v => exact (byte_codec v).map fixUint8
  | fixInt16 v => exact (fix_codec (n := 2) (by decide) v).map fixInt16
  | fixUint16 v => exact (fix_codec (n := 2) (by decide) v).map fixUint16
  | fixInt32 v => exact (fix_codec (n := 4) (by decide) v).map fixInt32
  | fixUint32 v => exact (fix_codec (n := 4) (by decide) v).map fixUint32
  | fixInt64 v => exact (fix_codec (n := 8) (by decide) v).map fixInt64
  | fixUint64 v => exact (fix_codec (n := 8) (by decide) v).map fixUint64
  | int32 v => exact (int32_codec v).map int32
  | uint32 v => exact (uint32_codec v).map uint32
  | int64 v => exact (int64_codec v).map int64
  | uint64 v => exact (uint64_codec v).map uint64
  | float v => exact (fix_codec (n := 4) (by decide) v).map float
  | double v => exact (fix_codec (n := 8) (by decide) v).map double

/-- A number, or a change of the byte order. -/
inductive Item where
  | num (x : Num)
  | setLittleEndian (v : Bool)
deriving DecidableEq, Repr

def writeItems : List Item → M Unit
  | [] => pure ()
  | .num x :: is => do
    x.write
    writeItems is
  | .setLittleEndian v :: is => do
    setLittleEndian v
    writeItems is

/-- The corresponding reads, with the changes of the byte order at the same places. -/
def readItems : List Item → M (List Item)
  | [] => pure []
  | .num x :: is => do
    let y ← x.read
    let js ← readItems is
    pure (.num y :: js)
  | .setLittleEndian v :: is => do
    setLittleEndian v
    let js ← readItems is
    pure (.setLittleEndian v :: js)

/-- The bytes of the numbers, each in the byte order in force. -/
def itemBytes : Endian → List Item → List UInt8
  | _, [] => []
  | endian, .num x :: is => x.bytes endian ++ itemBytes endian is
  | _, .setLittleEndian v :: is => itemBytes (if v then .little else .big) is

theorem setEndian_facts {b : ByteArray} (h : Inv b) (endian : Endian) :
    Inv { b with endian } ∧ ({ b with endian } : ByteArray).abs = b.abs ∧
      ({ b with endian } : ByteArray).unread = b.unread :=
  ⟨⟨h.base_pos, h.uniform, h.nodes_pos, h.capacity_eq, h.position_le, h.size_le, h.cur_eq⟩,
    rfl, rfl⟩

/-- Written at the end, the bytes are appended. -/
theorem writeItems_ok (is : List Item) {b : ByteArray} (h : Inv b)
    (hend : b.abs.pos = b.abs.bytes.length) :
    ∃ b', writeItems is b = .ok () b' ∧ Inv b' ∧
      b'.abs.bytes = b.abs.bytes ++ itemBytes b.endian is := by
  induction is generalizing b with
  | nil => exact ⟨b, rfl, h, (List.append_nil _).symm⟩
  | cons i is ih =>
    cases i with
    | num x =>
      obtain ⟨b₁, hrun, hinv, habs, hendian⟩ := x.codec.writes b h
      have hbytes : b₁.abs.bytes = b.abs.bytes ++ x.bytes b.endian := by
        rw [habs, Flat.write, splice, hend, List.take_length,
          List.drop_of_length_le (Nat.le_add_right _ _), List.append_nil]
      have hpos : b₁.abs.pos = b₁.abs.bytes.length := by
        rw [hbytes, habs, List.length_append, ← hend]
        rfl
      obtain ⟨b', hrest, hinv', hbytes'⟩ := ih hinv hpos
      refine ⟨b', ?_, hinv', ?_⟩
      · rw [writeItems, Prog.bind_apply, hrun, Outcome.bind_ok]
        exact hrest
      · rw [hbytes', hbytes, hendian, itemBytes, List.append_assoc]
    | setLittleEndian v =>
      obtain ⟨hinv, habs, -⟩ := setEndian_facts h (if v then .little else .big)
      exact ih hinv (by rw [habs]; exact hend)

/-- Read from the front, the bytes give the numbers back. -/
theorem readItems_ok (is : List Item) {b : ByteArray} (h : Inv b) {rest : List UInt8}
    (hu : b.unread = itemBytes b.endian is ++ rest) :
    ∃ b', readItems is b = .ok is b' ∧ Inv b' ∧ b'.unread = rest := by
  induction is generalizing b with
  | nil => exact ⟨b, rfl, h, hu⟩
  | cons i is ih =>
    cases i with
    | num x =>
      rw [itemBytes, List.append_assoc] at hu
      have hread := x.codec.reads b _ h hu
      obtain ⟨hinv, hu'⟩ := advance_unread h hu
      obtain ⟨b', hrest, hinv', hleft⟩ := ih hinv hu'
      refine ⟨b', ?_, hinv', hleft⟩
      rw [readItems, Prog.bind_apply, hread, Outcome.bind_ok, Prog.bind_apply, hrest]
      rfl
    | setLittleEndian v =>
      obtain ⟨hinv, -, hunread⟩ := setEndian_facts h (if v then .little else .big)
      obtain ⟨b', hrest, hinv', hleft⟩ := ih hinv (by rw [hunread]; exact hu)
      refine ⟨b', ?_, hinv', hleft⟩
      rw [readItems, Prog.bind_apply, setLittleEndian, Prog.modify_apply, Outcome.bind_ok,
        Prog.bind_apply, hrest]
      rfl

/-- **Numbers of all types come back as they were written**, for every block size and every mixture
of types and byte orders, and nothing is left to read.  An array starts in big-endian order, so
that is what the reader starts with. -/
theorem numbers_round_trip (base : Nat) (hb : 1 ≤ base) (heap : Nat → UInt8) (items : List Item) :
    ∃ b b', writeItems items (new base heap) = .ok () b ∧
      (do setPosition 0
          setLittleEndian false
          readItems items : M (List Item)) b = .ok items b' ∧
      b'.getReadSize = 0 := by
  obtain ⟨b, hwrite, hinv, hbytes⟩ := writeItems_ok items (new_inv hb heap) rfl
  obtain ⟨b₁, hseek, hinv₁, habs₁⟩ := setPosition_abs hinv (Nat.zero_le _)
  obtain ⟨hinv₂, -, hunread⟩ := setEndian_facts hinv₁ .big
  have hu : b₁.unread = itemBytes .big items ++ [] := by
    rw [unread, ← abs_drop, habs₁, hbytes, new_abs, List.append_nil]
    rfl
  obtain ⟨b', hread, hinv', hleft⟩ := readItems_ok items hinv₂ (hunread.trans hu)
  refine ⟨b, b', hwrite, ?_, ?_⟩
  · rw [Prog.bind_apply, hseek, Outcome.bind_ok]
    exact hread
  · rw [getReadSize, ← length_unread hinv', hleft]
    rfl

/-- A mixture that crosses block boundaries. -/
theorem numbers_round_trip_mixed :
    ∃ b b', writeItems
        [.num (.int32 (-5)), .setLittleEndian true, .num (.fixUint64 0x0102030405060708),
          .num (.uint64 300)] (new 3 fun _ => 0) = .ok () b ∧
      (do setPosition 0
          setLittleEndian false
          readItems [.num (.int32 (-5)), .setLittleEndian true,
            .num (.fixUint64 0x0102030405060708), .num (.uint64 300)] : M (List Item)) b =
        .ok [.num (.int32 (-5)), .setLittleEndian true, .num (.fixUint64 0x0102030405060708),
          .num (.uint64 300)] b' ∧
      b'.getReadSize = 0 :=
  numbers_round_trip 3 (by decide) _ _

/-! ## Strings -/

/-- The formats of strings with their length in front. -/
inductive StringFormat where
  | fix16
  | fix32
  | fix64
  | vint
deriving DecidableEq, Repr

def writeString : StringFormat → List UInt8 → M Unit
  | .fix16 => writeStringFix16
  | .fix32 => writeStringFix32
  | .fix64 => writeStringFix64
  | .vint => writeStringVint

def readString : StringFormat → M (List UInt8)
  | .fix16 => readStringFix16
  | .fix32 => readStringFix32
  | .fix64 => readStringFix64
  | .vint => readStringVint

/-- The number of bits that a length has in a format. -/
def StringFormat.width : StringFormat → Nat
  | fix16 => 16
  | fix32 => 32
  | fix64 => 64
  | vint => 64

/-- Written at any position of any array that calls have led to, with other data after it, the
string is read back at that position, the position is then the one behind the string, and the data
behind it are read back as well. -/
def StringSurvives (f : StringFormat) (s : List UInt8) : Prop :=
  ∀ (base : Nat) (heap : Nat → UInt8) (before : List Op) (b : ByteArray) (after : List UInt8),
    1 ≤ base → runFrom step (new base heap) before = some b →
    ∃ b₁ b₂ b₃ b₄, writeString f s b = .ok () b₁ ∧ write after b₁ = .ok () b₂ ∧
      setPosition b.getPosition b₂ = .ok () b₃ ∧ readString f b₃ = .ok s b₄ ∧
      b₄.getPosition = b₁.getPosition ∧
      (after ≠ [] → ∃ b₅, read after.length b₄ = .ok after b₅)

/-- The length as it is written. -/
def lengthBytes (f : StringFormat) (len : Nat) (endian : Endian) : List UInt8 :=
  match f with
  | .fix16 => fixBytes endian 2 (BitVec.ofNat 16 len)
  | .fix32 => fixBytes endian 4 (BitVec.ofNat 32 len)
  | .fix64 => fixBytes endian 8 (BitVec.ofNat 64 len)
  | .vint => varint (BitVec.ofNat 64 len).toNat

/-- The write of the length, and the read of it. -/
def writeLength (f : StringFormat) (len : Nat) : M Unit :=
  match f with
  | .fix16 => writeFixUint16 (BitVec.ofNat 16 len)
  | .fix32 => writeFixUint32 (BitVec.ofNat 32 len)
  | .fix64 => writeFixUint64 (BitVec.ofNat 64 len)
  | .vint => writeUint64 (BitVec.ofNat 64 len)

def readLength (f : StringFormat) : M Nat :=
  match f with
  | .fix16 => do let len ← readFixUint16; pure len.toNat
  | .fix32 => do let len ← readFixUint32; pure len.toNat
  | .fix64 => do let len ← readFixUint64; pure len.toNat
  | .vint => do let len ← readUint64; pure len.toNat

theorem length_codec (f : StringFormat) (len : Nat) :
    Codec (writeLength f len) (readLength f) (len % 2 ^ f.width)
      fun endian => lengthBytes f len endian := by
  cases f with
  | fix16 => exact (fix_codec (n := 2) (by decide) (BitVec.ofNat 16 len)).map BitVec.toNat
  | fix32 => exact (fix_codec (n := 4) (by decide) (BitVec.ofNat 32 len)).map BitVec.toNat
  | fix64 => exact (fix_codec (n := 8) (by decide) (BitVec.ofNat 64 len)).map BitVec.toNat
  | vint => exact (uint64_codec (BitVec.ofNat 64 len)).map BitVec.toNat

theorem writeString_eq (f : StringFormat) (s : List UInt8) (b : ByteArray) :
    writeString f s b = (writeLength f s.length b).bind fun _ b₁ => write s b₁ := by
  cases f <;> rfl

theorem readString_eq (f : StringFormat) (b : ByteArray) :
    readString f b = (readLength f b).bind fun len b₁ => readStringBody len b₁ := by
  cases f with
  | fix16 =>
    simp only [readString, readStringFix16, readLength, Prog.bind_apply]
    cases readFixUint16 b <;> rfl
  | fix32 =>
    simp only [readString, readStringFix32, readLength, Prog.bind_apply]
    cases readFixUint32 b <;> rfl
  | fix64 =>
    simp only [readString, readStringFix64, readLength, Prog.bind_apply]
    cases readFixUint64 b <;> rfl
  | vint =>
    simp only [readString, readStringVint, readLength, Prog.bind_apply]
    cases readUint64 b <;> rfl

theorem setPosition_endian {pos : Nat} {b b' : ByteArray} (h : setPosition pos b = .ok () b') :
    b'.endian = b.endian := by
  unfold setPosition at h
  split at h
  · cases h
  · split at h
    · cases h
    · cases h
      rfl

/-- The string with its length and the data behind it, back at the start. -/
theorem writeString_back (f : StringFormat) (s after : List UInt8) {b : ByteArray} (h : Inv b) :
    ∃ b₁ b₂ b₃ rest, writeString f s b = .ok () b₁ ∧ write after b₁ = .ok () b₂ ∧
      setPosition b.getPosition b₂ = .ok () b₃ ∧ Inv b₃ ∧ b₃.endian = b.endian ∧
      b₃.unread = lengthBytes f s.length b.endian ++ (s ++ (after ++ rest)) ∧
      b₃.position = b.position ∧
      b₁.position = b.position + (lengthBytes f s.length b.endian).length + s.length := by
  have hpos : b.abs.pos ≤ b.abs.bytes.length := by
    rw [abs_length h]
    exact h.position_le
  obtain ⟨b₀, hlen, hinv₀, habs₀, hend₀⟩ := (length_codec f s.length).writes b h
  obtain ⟨b₁, hs, hinv₁, habs₁, hend₁⟩ := write_ok hinv₀ s
  obtain ⟨b₂, hafter, hinv₂, habs₂, hend₂⟩ := write_ok hinv₁ after
  -- the three writes are one write of the three parts
  have hbytes : b₂.abs.bytes =
      splice b.abs.bytes b.abs.pos (lengthBytes f s.length b.endian ++ (s ++ after)) := by
    rw [habs₂, habs₁, habs₀]
    simp only [Flat.write]
    rw [splice_splice hpos, Nat.add_assoc, ← List.length_append, splice_splice hpos,
      List.append_assoc]
  have hle : b.getPosition ≤ b₂.abs.bytes.length := by
    have hp := congrArg Flat.pos habs₂
    rw [habs₁, habs₀] at hp
    have hposition : b₂.position = b.position + (lengthBytes f s.length b.endian).length +
        s.length + after.length := hp
    have := hinv₂.position_le
    rw [abs_length hinv₂]
    change b.position ≤ b₂.size
    omega
  obtain ⟨b₃, hseek, hinv₃, habs₃⟩ := setPosition_abs hinv₂ hle
  refine ⟨b₁, b₂, b₃, b.abs.bytes.drop (b.abs.pos +
    (lengthBytes f s.length b.endian ++ (s ++ after)).length), ?_, hafter, hseek, hinv₃, ?_, ?_,
    ?_, ?_⟩
  · rw [writeString_eq, hlen, Outcome.bind_ok, hs]
  · rw [setPosition_endian hseek, hend₂, hend₁, hend₀]
  · have hu : b₃.unread = b₂.abs.bytes.drop b.abs.pos := by
      rw [unread, ← abs_drop, habs₃]
      rfl
    rw [hu, hbytes, drop_splice hpos, List.append_assoc, List.append_assoc]
  · exact congrArg Flat.pos habs₃
  · have hp := congrArg Flat.pos habs₁
    rw [habs₀] at hp
    exact hp

/-- What is read as the body of a string has the length that was asked for. -/
theorem readStringBody_length {len : Nat} {b b' : ByteArray} (h : Inv b) {d : List UInt8}
    (hrun : readStringBody len b = .ok d b') : d.length = len := by
  unfold readStringBody at hrun
  split at hrun
  · cases hrun
  · rw [read_eq h] at hrun
    split at hrun
    · cases hrun
    · next hsize =>
      split at hrun
      · cases hrun
      · cases hrun
        have hpl := h.position_le
        have hsl := h.size_le
        rw [List.length_take, List.length_drop, h.length_flat]
        omega

/-- A string whose length is too large for its format does not come back. -/
theorem StringSurvives.length_lt {f : StringFormat} {s : List UInt8} (h : StringSurvives f s) :
    s.length < 2 ^ f.width := by
  obtain ⟨b₁, b₂, b₃, b₄, hw, hwa, hseek, hread, -⟩ :=
    h 1 (fun _ => 0) [] (new 1 fun _ => 0) [] (Nat.le_refl 1) rfl
  obtain ⟨c₁, c₂, c₃, rest, hw', hwa', hseek', hinv, hend, hu, -⟩ :=
    writeString_back f s [] (new_inv Nat.one_pos fun _ => 0)
  -- the calls are the same
  cases hw.symm.trans hw'
  cases hwa.symm.trans hwa'
  cases hseek.symm.trans hseek'
  rw [← hend] at hu
  rw [readString_eq, (length_codec f s.length).reads b₃ _ hinv hu, Outcome.bind_ok] at hread
  have hlen := readStringBody_length (advance_unread hinv hu).1 hread
  rw [hlen]
  exact Nat.mod_lt _ (Nat.two_pow_pos _)

/-- **A string survives just when its length fits into the width of its format.** -/
theorem stringSurvives_iff (f : StringFormat) {s : List UInt8} (hs : s ≠ [])
    (hmax : s.length ≤ maxStringSize) : StringSurvives f s ↔ s.length < 2 ^ f.width := by
  refine ⟨StringSurvives.length_lt, ?_⟩
  intro hfit base heap before b after hb hbefore
  obtain ⟨b₁, b₂, b₃, rest, hw, hwa, hseek, hinv, hend, hu, hp₃, hp₁⟩ :=
    writeString_back f s after (run_inv hb hbefore)
  rw [← hend] at hu hp₁
  obtain ⟨hinv', hu'⟩ := advance_unread hinv hu
  obtain ⟨hinv'', hu''⟩ := advance_unread hinv' hu'
  have hlen := (length_codec f s.length).reads b₃ _ hinv hu
  rw [Nat.mod_eq_of_lt hfit] at hlen
  have hread := read_ok hinv' (List.length_pos_iff.mpr hs)
    (by rw [hu', List.length_append]; exact Nat.le_add_right _ _)
  rw [hu', List.take_left] at hread
  refine ⟨b₁, b₂, b₃, (b₃.advance (lengthBytes f s.length b₃.endian).length).advance s.length,
    hw, hwa,
    hseek, ?_, ?_, ?_⟩
  · rw [readString_eq, hlen, Outcome.bind_ok, readStringBody, if_neg (Nat.not_lt.mpr hmax), hread]
  · change b₃.position + _ + _ = b₁.position
    rw [hp₃, hp₁]
  · intro hne
    have hnext := read_ok hinv'' (List.length_pos_iff.mpr hne)
      (by rw [hu'', List.length_append]; exact Nat.le_add_right _ _)
    rw [hu'', List.take_left] at hnext
    exact ⟨_, hnext⟩

/-- A short string, in the narrowest format. -/
theorem stringSurvives_short : StringSurvives .fix16 [104, 105] :=
  (stringSurvives_iff .fix16 (by decide) (by decide)).mpr (by decide)

/-- A string of `2 ^ 16` bytes has the length 0 there. -/
theorem long_string_not_survives : ¬ StringSurvives .fix16 (List.replicate (2 ^ 16) 97) := by
  intro h
  have hlen := h.length_lt
  rw [List.length_replicate] at hlen
  exact absurd hlen (Nat.lt_irrefl _)

end Luwu.ByteArray
