import Luwu.ByteArray.Bits
import Luwu.Net.Address

/-!
# Broadcast address, network address and subnet mask

`CreateMask` shifts an `int`, and the IPv6 versions address the bytes of the address by the length
of the prefix, so that both can leave the defined behaviour; `Undefined` says how.
-/

namespace Luwu

open Luwu.ByteArray

/-- A shift by the width of `int` or more, an `int` below its least value, an index outside
`s6_addr`. -/
inductive Undefined where
  | shift (count : Nat)
  | overflow
  | index (i : Nat)
deriving DecidableEq, Repr

/-- `1 << count`. -/
def shiftOne (count : Nat) : Except Undefined (BitVec 32) :=
  if count < 32 then .ok (1#32 <<< count) else .error (.shift count)

/-- `value - 1` for an `int`. -/
def minusOne (value : BitVec 32) : Except Undefined (BitVec 32) :=
  if value.toInt - 1 < -2147483648 then .error .overflow else .ok (value - 1)

/-- `CreateMask` for the unsigned type of `size` bytes. -/
def createMask (size : Nat) (bits : UInt32) : Except Undefined (BitVec (8 * size)) := do
  let one ← shiftOne (UInt64.ofNat (8 * size) - bits.toUInt64).toNat
  let mask ← minusOne one
  pure (mask.signExtend (8 * size))

/-- The mask of `n` leading ones. -/
def leadingOnes (w n : Nat) : BitVec w := BitVec.allOnes w <<< (w - n)

theorem getLsbD_leadingOnes {w n i : Nat} (hi : i < w) :
    (leadingOnes w n).getLsbD i = decide (w - n ≤ i) := by
  rw [leadingOnes, BitVec.getLsbD_shiftLeft, BitVec.getLsbD_allOnes, decide_eq_true hi,
    Bool.true_and, decide_eq_true (show i - (w - n) < w by omega), Bool.and_true]
  by_cases h : i < w - n
  · rw [decide_eq_true h, decide_eq_false (by omega)]
    rfl
  · rw [decide_eq_false h, decide_eq_true (by omega)]
    rfl

/-- `2 ^ k - 1` is the complement of the leading ones. -/
theorem ofNat_trailingOnes {w n : Nat} :
    BitVec.ofNat w (2 ^ (w - n) - 1) = ~~~leadingOnes w n := by
  refine BitVec.eq_of_getLsbD_eq fun i hi => ?_
  rw [BitVec.getLsbD_not, getLsbD_leadingOnes hi, BitVec.getLsbD_ofNat,
    Nat.testBit_two_pow_sub_one, decide_eq_true hi, Bool.true_and, Bool.true_and, ← decide_not,
    decide_eq_decide]
  exact Nat.not_le.symm

section

variable {size : Nat} {bits : UInt32}

theorem shiftCount (hsize : size ≤ 4) (hbits : bits.toNat ≤ 8 * size) :
    (UInt64.ofNat (8 * size) - bits.toUInt64).toNat = 8 * size - bits.toNat := by
  have hof : (UInt64.ofNat (8 * size)).toNat = 8 * size :=
    UInt64.toNat_ofNat_of_lt (by rw [UInt64.size]; omega)
  rw [UInt64.toNat_sub_of_le, hof, UInt32.toNat_toUInt64]
  rw [UInt64.le_iff_toNat_le, hof, UInt32.toNat_toUInt64]
  exact hbits

theorem minusOne_shiftOne {k : Nat} (hk : k ≤ 30) :
    (shiftOne k).bind minusOne = .ok (BitVec.ofNat 32 (2 ^ k - 1)) := by
  have hall : ∀ k : Fin 31, (shiftOne k).bind minusOne = .ok (BitVec.ofNat 32 (2 ^ k.val - 1)) := by
    decide
  exact hall ⟨k, by omega⟩

/-- A mask of at most 30 trailing ones is computed within `int`. -/
theorem createMask_eq (hsize : size ≤ 4) (hbits : bits.toNat ≤ 8 * size)
    (hcount : 8 * size - bits.toNat ≤ 30) :
    createMask size bits = .ok (~~~leadingOnes (8 * size) bits.toNat) := by
  have hwidth : (BitVec.ofNat 32 (2 ^ (8 * size - bits.toNat) - 1)).signExtend (8 * size) =
      BitVec.ofNat (8 * size) (2 ^ (8 * size - bits.toNat) - 1) := by
    rw [BitVec.signExtend_eq_setWidth_of_le _ (by omega), BitVec.setWidth_ofNat_of_le (by omega)]
  have hmask : shiftOne (8 * size - bits.toNat) >>= minusOne = .ok _ := minusOne_shiftOne hcount
  rw [createMask, shiftCount hsize hbits, ← bind_assoc, hmask, ← ofNat_trailingOnes, ← hwidth]
  rfl

end

/-- A `sockaddr` of zeros but for its family. -/
def blank (size family : Nat) : Vector UInt8 size :=
  Vector.ofFn fun i => (toBytes 2 (BitVec.ofNat _ family)).getD i 0

/-! ## IPv4 -/

namespace IPv4Address

/-- `sin_addr.s_addr`, as the host reads it. -/
def sAddr (addr : Vector UInt8 16) : BitVec (8 * 4) :=
  BitVec.ofNat _ (ofBytes ((addr.toList.drop 4).take 4))

def setSAddr (addr : Vector UInt8 16) (v : BitVec (8 * 4)) : Vector UInt8 16 :=
  Vector.ofFn fun i => if 4 ≤ i.val ∧ i.val < 8 then (toBytes 4 v).getD (i - 4) 0 else addr[i]

/-- The address in host order. -/
def hostAddr (addr : Vector UInt8 16) : BitVec (8 * 4) := byteSwap 4 (sAddr addr)

def broadcastAddress (addr : Vector UInt8 16) (prefixLen : UInt32) :
    Except Undefined (Option Address) :=
  if 32 < prefixLen then .ok none
  else do
    let mask ← createMask 4 prefixLen
    pure (some (.ipv4 (setSAddr addr (sAddr addr ||| byteSwap 4 mask))))

def networkAddress (addr : Vector UInt8 16) (prefixLen : UInt32) :
    Except Undefined (Option Address) :=
  if 32 < prefixLen then .ok none
  else do
    let mask ← createMask 4 prefixLen
    pure (some (.ipv4 (setSAddr addr (sAddr addr &&& byteSwap 4 (~~~mask)))))

def subnetMask (prefixLen : UInt32) : Except Undefined (Option Address) :=
  if 32 < prefixLen then .ok none
  else do
    let mask ← createMask 4 prefixLen
    pure (some (.ipv4 (setSAddr (blank 16 Address.afInet) (~~~byteSwap 4 mask))))

/-- What the operations return for a prefix of at most 32 bits. -/
structure Masked (addr : Vector UInt8 16) (prefixLen : UInt32) : Prop where
  subnet : ∃ m, subnetMask prefixLen = .ok (some (.ipv4 m)) ∧
    hostAddr m = leadingOnes 32 prefixLen.toNat
  network : ∃ r, networkAddress addr prefixLen = .ok (some (.ipv4 r)) ∧
    hostAddr r = hostAddr addr &&& leadingOnes 32 prefixLen.toNat ∧ hostAddr r ≤ hostAddr addr ∧
    networkAddress r prefixLen = .ok (some (.ipv4 r))
  broadcast : ∃ r, broadcastAddress addr prefixLen = .ok (some (.ipv4 r)) ∧
    hostAddr r = hostAddr addr ||| ~~~leadingOnes 32 prefixLen.toNat ∧ hostAddr addr ≤ hostAddr r

/-- The operations mask the address, or return null for a longer prefix. -/
def MasksRight (addr : Vector UInt8 16) (prefixLen : UInt32) : Prop :=
  if prefixLen.toNat ≤ 32 then Masked addr prefixLen
  else subnetMask prefixLen = .ok none ∧ networkAddress addr prefixLen = .ok none ∧
    broadcastAddress addr prefixLen = .ok none

section

variable {addr : Vector UInt8 16} {prefixLen : UInt32} {v : BitVec (8 * 4)}

theorem sAddr_setSAddr : sAddr (setSAddr addr v) = v := by
  have hbytes : ((setSAddr addr v).toList.drop 4).take 4 = toBytes 4 v := by
    refine List.ext_getElem ?_ fun i h₁ h₂ => ?_
    · simp
    · have hi : i < 4 := by simpa using h₂
      simp [setSAddr, hi, show 4 + i < 8 by omega]
  rw [sAddr, hbytes, ofBytes_toBytes, BitVec.ofNat_toNat, BitVec.setWidth_eq]

theorem setSAddr_setSAddr {w : BitVec (8 * 4)} :
    setSAddr (setSAddr addr v) w = setSAddr addr w := by
  refine Vector.ext fun i hi => ?_
  simp only [setSAddr, Vector.getElem_ofFn]
  split_ifs <;> simp [*]

theorem hostAddr_setSAddr : hostAddr (setSAddr addr v) = byteSwap 4 v := by
  rw [hostAddr, sAddr_setSAddr]

theorem createMask_ok (hlow : 2 ≤ prefixLen.toNat) (hhigh : prefixLen.toNat ≤ 32) :
    createMask 4 prefixLen = .ok (~~~leadingOnes (8 * 4) prefixLen.toNat) :=
  createMask_eq (by decide) hhigh (by omega)

/-- A full shift, and the least `int` less one. -/
theorem createMask_undefined (hlow : prefixLen.toNat < 2) :
    ∃ e, createMask 4 prefixLen = .error e := by
  obtain h | h : prefixLen.toNat = 0 ∨ prefixLen.toNat = 1 := by omega
  · obtain rfl : prefixLen = 0 := UInt32.toNat_inj.mp h
    exact ⟨.shift 32, by decide⟩
  · obtain rfl : prefixLen = 1 := UInt32.toNat_inj.mp h
    exact ⟨.overflow, by decide⟩

theorem subnetMask_ok (hlow : 2 ≤ prefixLen.toNat) (hhigh : prefixLen.toNat ≤ 32) :
    ∃ m, subnetMask prefixLen = .ok (some (.ipv4 m)) ∧
      hostAddr m = leadingOnes 32 prefixLen.toNat := by
  refine ⟨setSAddr (blank 16 Address.afInet) (~~~byteSwap 4 (~~~leadingOnes 32 prefixLen.toNat)),
    ?_, ?_⟩
  · rw [subnetMask, if_neg (by rw [UInt32.lt_iff_toNat_lt]; exact Nat.not_lt.mpr hhigh),
      createMask_ok hlow hhigh]
    rfl
  · rw [hostAddr_setSAddr, byteSwap_not, byteSwap_byteSwap, BitVec.not_not]

theorem networkAddress_eq (hlow : 2 ≤ prefixLen.toNat) (hhigh : prefixLen.toNat ≤ 32) :
    networkAddress addr prefixLen = .ok (some (.ipv4 (setSAddr addr
      (sAddr addr &&& byteSwap 4 (leadingOnes 32 prefixLen.toNat))))) := by
  rw [networkAddress, if_neg (by rw [UInt32.lt_iff_toNat_lt]; exact Nat.not_lt.mpr hhigh),
    createMask_ok hlow hhigh]
  show Except.ok (some (Address.ipv4 (setSAddr addr (sAddr addr &&& byteSwap 4 (~~~~~~_))))) = _
  rw [BitVec.not_not]

theorem networkAddress_ok (hlow : 2 ≤ prefixLen.toNat) (hhigh : prefixLen.toNat ≤ 32) :
    ∃ r, networkAddress addr prefixLen = .ok (some (.ipv4 r)) ∧
      hostAddr r = hostAddr addr &&& leadingOnes 32 prefixLen.toNat ∧ hostAddr r ≤ hostAddr addr ∧
      networkAddress r prefixLen = .ok (some (.ipv4 r)) := by
  refine ⟨_, networkAddress_eq hlow hhigh, ?_⟩
  have hhost : hostAddr (setSAddr addr
      (sAddr addr &&& byteSwap 4 (leadingOnes 32 prefixLen.toNat))) =
      hostAddr addr &&& leadingOnes 32 prefixLen.toNat := by
    rw [hostAddr_setSAddr, byteSwap_and, byteSwap_byteSwap, hostAddr]
  refine ⟨hhost, ?_, ?_⟩
  · rw [hhost, BitVec.le_def, BitVec.toNat_and]
    exact Nat.and_le_left
  · -- the mask is already there
    rw [networkAddress_eq hlow hhigh, sAddr_setSAddr, setSAddr_setSAddr, BitVec.and_assoc,
      BitVec.and_self]

theorem broadcastAddress_ok (hlow : 2 ≤ prefixLen.toNat) (hhigh : prefixLen.toNat ≤ 32) :
    ∃ r, broadcastAddress addr prefixLen = .ok (some (.ipv4 r)) ∧
      hostAddr r = hostAddr addr ||| ~~~leadingOnes 32 prefixLen.toNat ∧
      hostAddr addr ≤ hostAddr r := by
  have hhost : hostAddr (setSAddr addr
      (sAddr addr ||| byteSwap 4 (~~~leadingOnes 32 prefixLen.toNat))) =
      hostAddr addr ||| ~~~leadingOnes 32 prefixLen.toNat := by
    rw [hostAddr_setSAddr, byteSwap_or, byteSwap_byteSwap, hostAddr]
  refine ⟨_, ?_, hhost, ?_⟩
  · rw [broadcastAddress, if_neg (by rw [UInt32.lt_iff_toNat_lt]; exact Nat.not_lt.mpr hhigh),
      createMask_ok hlow hhigh]
    rfl
  · rw [hhost, BitVec.le_def, BitVec.toNat_or]
    exact Nat.left_le_or

end

/-- **The operations are right but for the prefixes of no bit and of one**, whose mask is not
computed within `int`. -/
theorem ipv4Masks_iff (addr : Vector UInt8 16) (prefixLen : UInt32) :
    MasksRight addr prefixLen ↔ prefixLen ≠ 0 ∧ prefixLen ≠ 1 := by
  have hne : prefixLen ≠ 0 ∧ prefixLen ≠ 1 ↔ 2 ≤ prefixLen.toNat := by
    rw [Ne, Ne, ← UInt32.toNat_inj, ← UInt32.toNat_inj, UInt32.toNat_zero, UInt32.toNat_one]
    omega
  rw [hne, MasksRight]
  by_cases hhigh : prefixLen.toNat ≤ 32
  · rw [if_pos hhigh]
    constructor
    · rintro ⟨⟨m, hm, -⟩, -, -⟩
      by_contra hlow
      obtain ⟨e, he⟩ := createMask_undefined (Nat.not_le.mp hlow)
      rw [subnetMask, if_neg (by rw [UInt32.lt_iff_toNat_lt]; exact Nat.not_lt.mpr hhigh), he] at hm
      cases hm
    · intro hlow
      exact ⟨subnetMask_ok hlow hhigh, networkAddress_ok hlow hhigh, broadcastAddress_ok hlow hhigh⟩
  · have hlong : 32 < prefixLen := by
      rw [UInt32.lt_iff_toNat_lt]
      exact Nat.not_le.mp hhigh
    rw [if_neg hhigh]
    refine iff_of_true ⟨?_, ?_, ?_⟩ (by omega)
    · rw [subnetMask, if_pos hlong]
    · rw [networkAddress, if_pos hlong]
    · rw [broadcastAddress, if_pos hlong]

/-- The netmask of every address. -/
theorem ipv4Masks_zero :
    ¬ MasksRight #v[2, 0, 0, 0, 192, 168, 1, 120, 0, 0, 0, 0, 0, 0, 0, 0] 0 := by
  intro h
  obtain ⟨⟨m, hm, -⟩, -, -⟩ := h
  have herror : subnetMask 0 = .error (.shift 32) := rfl
  rw [herror] at hm
  cases hm

end IPv4Address

/-! ## IPv6 -/

namespace IPv6Address

/-- `sin6_addr.s6_addr`. -/
def s6Addr (addr : Vector UInt8 28) : Bytes := (addr.toList.drop 8).take 16

/-- The port, as the network reads it. -/
def port (addr : Vector UInt8 28) : Bytes := (addr.toList.drop 2).take 2

/-- The 128 bits of the address, the first byte on top. -/
def value (addr : Vector UInt8 28) : BitVec 128 := BitVec.ofNat _ (ofBytes (s6Addr addr).reverse)

/-- `s6_addr[i] = f (s6_addr[i])`. -/
def update (addr : Vector UInt8 28) (i : Nat) (f : UInt8 → UInt8) :
    Except Undefined (Vector UInt8 28) :=
  if h : i < 16 then .ok (addr.set (8 + i) (f addr[8 + i])) else .error (.index i)

/-- The loop that sets the bytes from `first` on, and in front of `last`, to `v`. -/
def fill (addr : Vector UInt8 28) (first last : Nat) (v : UInt8) :
    Except Undefined (Vector UInt8 28) :=
  (List.range' first (last - first)).foldlM (fun addr i => update addr i fun _ => v) addr

def broadcastAddress (addr : Vector UInt8 28) (prefixLen : UInt32) :
    Except Undefined (Option Address) := do
  let i := prefixLen.toNat / 8
  let mask ← createMask 1 (prefixLen % 8)
  let addr ← update addr i (· ||| .ofBitVec mask)
  let addr ← fill addr (i + 1) 16 0xff
  pure (some (.ipv6 addr))

def networkAddress (addr : Vector UInt8 28) (prefixLen : UInt32) :
    Except Undefined (Option Address) := do
  let i := prefixLen.toNat / 8
  let mask ← createMask 1 (prefixLen % 8)
  let addr ← update addr i (· &&& .ofBitVec mask)
  let addr ← fill addr (i + 1) 16 0
  pure (some (.ipv6 addr))

def subnetMask (prefixLen : UInt32) : Except Undefined (Option Address) := do
  let i := prefixLen.toNat / 8
  let mask ← createMask 1 (prefixLen % 8)
  let addr ← update (blank 28 Address.afInet6) i fun _ => ~~~.ofBitVec mask
  let addr ← fill addr 0 i 0xff
  pure (some (.ipv6 addr))

/-- What the operations return for a prefix of at most 128 bits. -/
structure Masked (addr : Vector UInt8 28) (prefixLen : UInt32) : Prop where
  subnet : ∃ m, subnetMask prefixLen = .ok (some (.ipv6 m)) ∧
    value m = leadingOnes 128 prefixLen.toNat
  network : ∃ r, networkAddress addr prefixLen = .ok (some (.ipv6 r)) ∧
    value r = value addr &&& leadingOnes 128 prefixLen.toNat ∧ port r = port addr
  broadcast : ∃ r, broadcastAddress addr prefixLen = .ok (some (.ipv6 r)) ∧
    value r = value addr ||| ~~~leadingOnes 128 prefixLen.toNat ∧ port r = port addr

/-- The operations mask the address, or return null for a longer prefix. -/
def MasksRight (addr : Vector UInt8 28) (prefixLen : UInt32) : Prop :=
  if prefixLen.toNat ≤ 128 then Masked addr prefixLen
  else subnetMask prefixLen = .ok none ∧ networkAddress addr prefixLen = .ok none ∧
    broadcastAddress addr prefixLen = .ok none

section

variable {addr : Vector UInt8 28} {prefixLen : UInt32}

/-- Byte `j` of an address. -/
def byteOf (v : BitVec 128) (j : Nat) : BitVec 8 := v.extractLsb' (8 * (15 - j)) 8

theorem eq_of_byteOf {v w : BitVec 128} (h : ∀ j < 16, byteOf v j = byteOf w j) : v = w := by
  refine BitVec.eq_of_getLsbD_eq fun i hi => ?_
  have hbyte := congrArg (·.getLsbD (i % 8)) (h (15 - i / 8) (by omega))
  have hpos : 8 * (15 - (15 - i / 8)) + i % 8 = i := by omega
  simpa only [byteOf, BitVec.getLsbD_extractLsb', hpos, Nat.mod_lt i (show 0 < 8 by decide),
    decide_true, Bool.true_and] using hbyte

theorem byteOf_value {j : Nat} (hj : j < 16) : byteOf (value addr) j = addr[8 + j].toBitVec := by
  have hlen : (s6Addr addr).length = 16 := by simp [s6Addr]
  refine BitVec.eq_of_getLsbD_eq fun i hi => ?_
  have hdiv : (8 * (15 - j) + i) / 8 = 15 - j := by omega
  have hmod : (8 * (15 - j) + i) % 8 = i := by omega
  have hbyte : (s6Addr addr).reverse.getD (15 - j) 0 = addr[8 + j] := by
    rw [List.getD_reverse _ (by omega), hlen, List.getD_eq_getElem _ _ (by omega)]
    simp only [s6Addr, List.getElem_take, List.getElem_drop, Vector.getElem_toList]
    congr 1
    omega
  rw [byteOf, BitVec.getLsbD_extractLsb', decide_eq_true hi, Bool.true_and, value,
    BitVec.getLsbD_ofNat, decide_eq_true (by omega), Bool.true_and, testBit_ofBytes, hdiv, hmod,
    hbyte]
  rfl

/-- The bytes of a mask: ones, one boundary byte, zeros. -/
theorem byteOf_leadingOnes {n j : Nat} (hj : j < 16) :
    byteOf (leadingOnes 128 n) j =
      if j < n / 8 then BitVec.allOnes 8 else if j = n / 8 then leadingOnes 8 (n % 8) else 0 := by
  refine BitVec.eq_of_getLsbD_eq fun i hi => ?_
  rw [byteOf, BitVec.getLsbD_extractLsb', decide_eq_true hi, Bool.true_and,
    getLsbD_leadingOnes (by omega)]
  split_ifs with hfull hbound
  · rw [BitVec.getLsbD_allOnes, decide_eq_decide]
    omega
  · rw [getLsbD_leadingOnes hi, decide_eq_decide]
    omega
  · rw [show (0 : BitVec 8) = 0#8 from rfl, BitVec.getLsbD_zero, decide_eq_false_iff_not]
    omega

theorem createMask_ok : createMask 1 (prefixLen % 8) =
    .ok (~~~leadingOnes (8 * 1) (prefixLen.toNat % 8)) := by
  have hmod : (prefixLen % 8).toNat = prefixLen.toNat % 8 := UInt32.toNat_mod _ _
  rw [createMask_eq (by decide) (by omega) (by omega), hmod]

theorem update_ok {i : Nat} {f : UInt8 → UInt8} (hi : i < 16) :
    update addr i f = .ok (addr.set (8 + i) (f addr[8 + i])) := dif_pos hi

/-- The loop sets the bytes between its bounds and no other. -/
theorem fill_ok (addr : Vector UInt8 28) (first : Nat) {last : Nat} (v : UInt8)
    (hlast : last ≤ 16) :
    ∃ r, fill addr first last v = .ok r ∧
      ∀ j (hj : j < 28), r[j] = if 8 + first ≤ j ∧ j < 8 + last then v else addr[j] := by
  obtain ⟨count, hcount⟩ : ∃ count, count = last - first := ⟨_, rfl⟩
  induction count generalizing addr first with
  | zero =>
    refine ⟨addr, ?_, fun j hj => (if_neg (by omega)).symm⟩
    rw [fill, ← hcount]
    rfl
  | succ count ih =>
    obtain ⟨r, hr, hbytes⟩ := ih (addr.set (8 + first) v) (first + 1) (by omega)
    refine ⟨r, ?_, fun j hj => ?_⟩
    · rw [fill, show last - (first + 1) = count by omega] at hr
      rw [fill, ← hcount, List.range'_succ, List.foldlM_cons, update_ok (by omega)]
      exact hr
    · rw [hbytes j hj, Vector.getElem_set]
      grind

theorem port_congr {r : Vector UInt8 28} (h : ∀ j (_ : j < 8), r[j] = addr[j]) :
    port r = port addr := by
  refine List.ext_getElem (by simp [port]) fun i h₁ h₂ => ?_
  have hi : i < 2 := by simpa [port] using h₁
  simpa [port] using h (2 + i) (by omega)

theorem byteOf_not {v : BitVec 128} {j : Nat} (hj : j < 16) : byteOf (~~~v) j = ~~~byteOf v j := by
  refine BitVec.eq_of_getLsbD_eq fun i hi => ?_
  rw [byteOf, byteOf, BitVec.getLsbD_extractLsb', BitVec.getLsbD_not, BitVec.getLsbD_not,
    BitVec.getLsbD_extractLsb', decide_eq_true hi, decide_eq_true (by omega)]
  rfl

theorem subnetMask_ok (hlen : prefixLen.toNat < 128) :
    ∃ m, subnetMask prefixLen = .ok (some (.ipv6 m)) ∧
      value m = leadingOnes 128 prefixLen.toNat := by
  have hi : prefixLen.toNat / 8 < 16 := by omega
  obtain ⟨m, hm, hbytes⟩ := fill_ok ((blank 28 Address.afInet6).set
    (8 + prefixLen.toNat / 8) (~~~.ofBitVec (~~~leadingOnes (8 * 1) (prefixLen.toNat % 8)))) 0
    0xff (show prefixLen.toNat / 8 ≤ 16 by omega)
  refine ⟨m, ?_, eq_of_byteOf fun j hj => ?_⟩
  · simp only [subnetMask, createMask_ok, update_ok hi]
    show (fill _ 0 _ 0xff >>= _) = _
    rw [hm]
    rfl
  · rw [byteOf_value hj, byteOf_leadingOnes hj, hbytes, Vector.getElem_set]
    rcases Nat.lt_trichotomy j (prefixLen.toNat / 8) with h | h | h
    · rw [if_pos (by omega), if_pos h]
      rfl
    · rw [if_neg (by omega), if_pos (by omega), if_neg (by omega), if_pos h]
      exact BitVec.not_not
    · rw [if_neg (by omega), if_neg (by omega), if_neg (by omega), if_neg (by omega)]
      have hzero : (blank 28 Address.afInet6)[8 + j] = 0 := by
        rw [blank, Vector.getElem_ofFn, List.getD_eq_default]
        rw [length_toBytes]
        exact Nat.le_trans (by decide) (Nat.le_add_right 8 j)
      rw [hzero]
      rfl

/-- One byte is changed in place, the bytes behind it are set, and nothing else is touched. -/
theorem update_fill_ok (addr : Vector UInt8 28) {i : Nat} (f : UInt8 → UInt8) (v : UInt8)
    (hi : i < 16) :
    ∃ r, (update addr i f >>= fun addr => fill addr (i + 1) 16 v) = .ok r ∧ port r = port addr ∧
      ∀ j (hj : j < 16), r[8 + j] =
        if j < i then addr[8 + j] else if j = i then f addr[8 + j] else v := by
  obtain ⟨r, hr, hbytes⟩ := fill_ok (addr.set (8 + i) (f addr[8 + i])) (i + 1) v (Nat.le_refl 16)
  refine ⟨r, ?_, port_congr fun j hj => ?_, fun j hj => ?_⟩
  · rw [update_ok hi]
    exact hr
  · rw [hbytes, Vector.getElem_set, if_neg (by omega), if_neg (by omega)]
  · rw [hbytes, Vector.getElem_set]
    rcases Nat.lt_trichotomy j i with h | rfl | h
    · rw [if_neg (by omega), if_neg (by omega), if_pos h]
    · rw [if_neg (by omega), if_pos rfl, if_neg (by omega), if_pos rfl]
    · rw [if_pos (by omega), if_neg (by omega), if_neg (by omega)]

theorem networkAddress_bytes (addr : Vector UInt8 28) (hlen : prefixLen.toNat < 128) :
    ∃ r, networkAddress addr prefixLen = .ok (some (.ipv6 r)) ∧ port r = port addr ∧
      ∀ j (hj : j < 16), r[8 + j] = if j < prefixLen.toNat / 8 then addr[8 + j]
        else if j = prefixLen.toNat / 8 then
          addr[8 + j] &&& .ofBitVec (~~~leadingOnes 8 (prefixLen.toNat % 8))
        else 0 := by
  obtain ⟨r, hr, hport, hbytes⟩ := update_fill_ok addr
    (· &&& .ofBitVec (~~~leadingOnes 8 (prefixLen.toNat % 8))) 0
    (show prefixLen.toNat / 8 < 16 by omega)
  refine ⟨r, ?_, hport, hbytes⟩
  rw [networkAddress, createMask_ok]
  show (update _ _ _ >>= fun addr => fill addr _ 16 0 >>= _) = _
  rw [← bind_assoc, hr]
  rfl

theorem broadcastAddress_bytes (addr : Vector UInt8 28) (hlen : prefixLen.toNat < 128) :
    ∃ r, broadcastAddress addr prefixLen = .ok (some (.ipv6 r)) ∧ port r = port addr ∧
      ∀ j (hj : j < 16), r[8 + j] = if j < prefixLen.toNat / 8 then addr[8 + j]
        else if j = prefixLen.toNat / 8 then
          addr[8 + j] ||| .ofBitVec (~~~leadingOnes 8 (prefixLen.toNat % 8))
        else 0xff := by
  obtain ⟨r, hr, hport, hbytes⟩ := update_fill_ok addr
    (· ||| .ofBitVec (~~~leadingOnes 8 (prefixLen.toNat % 8))) 0xff
    (show prefixLen.toNat / 8 < 16 by omega)
  refine ⟨r, ?_, hport, hbytes⟩
  rw [broadcastAddress, createMask_ok]
  show (update _ _ _ >>= fun addr => fill addr _ 16 0xff >>= _) = _
  rw [← bind_assoc, hr]
  rfl

theorem broadcastAddress_ok (hlen : prefixLen.toNat < 128) :
    ∃ r, broadcastAddress addr prefixLen = .ok (some (.ipv6 r)) ∧
      value r = value addr ||| ~~~leadingOnes 128 prefixLen.toNat ∧ port r = port addr := by
  obtain ⟨r, hr, hport, hbytes⟩ := broadcastAddress_bytes addr hlen
  refine ⟨r, hr, eq_of_byteOf fun j hj => ?_, hport⟩
  have hor : byteOf (value addr ||| ~~~leadingOnes 128 prefixLen.toNat) j =
      byteOf (value addr) j ||| byteOf (~~~leadingOnes 128 prefixLen.toNat) j :=
    BitVec.extractLsb'_or
  rw [byteOf_value hj, hbytes j hj, hor, byteOf_value hj, byteOf_not hj, byteOf_leadingOnes hj]
  split_ifs
  · rw [BitVec.not_allOnes, BitVec.or_zero]
  · rfl
  · rw [show (0 : BitVec 8) = 0#8 from rfl, BitVec.not_zero, BitVec.or_allOnes]
    rfl

theorem eq_zero_of_and_not {w : Nat} {a m : BitVec w} (h : a &&& ~~~m = a &&& m) : a = 0 := by
  refine BitVec.eq_of_getLsbD_eq fun i hi => ?_
  have hbit := congrArg (·.getLsbD i) h
  simp only [BitVec.getLsbD_and, BitVec.getLsbD_not, decide_eq_true hi, Bool.true_and] at hbit
  rw [show (0 : BitVec w) = 0#w from rfl, BitVec.getLsbD_zero]
  cases ha : a.getLsbD i with
  | false => rfl
  | true =>
    rw [ha, Bool.true_and, Bool.true_and] at hbit
    cases hm : m.getLsbD i <;> simp [hm] at hbit

/-- The boundary byte keeps the bits it should lose, so that it is right just when it has none. -/
theorem networkAddress_iff (hlen : prefixLen.toNat < 128) :
    (∃ r, networkAddress addr prefixLen = .ok (some (.ipv6 r)) ∧
      value r = value addr &&& leadingOnes 128 prefixLen.toNat ∧ port r = port addr) ↔
      addr[8 + prefixLen.toNat / 8] = 0 := by
  obtain ⟨r, hr, hport, hbytes⟩ := networkAddress_bytes addr hlen
  have hand : ∀ j, byteOf (value addr &&& leadingOnes 128 prefixLen.toNat) j =
      byteOf (value addr) j &&& byteOf (leadingOnes 128 prefixLen.toNat) j :=
    fun j => BitVec.extractLsb'_and
  constructor
  · rintro ⟨r', hr', hvalue, -⟩
    obtain rfl : r = r' := by
      rw [hr] at hr'
      cases hr'
      rfl
    -- the byte of the boundary, with its mask the wrong way round
    have hi : prefixLen.toNat / 8 < 16 := by omega
    have hbyte := congrArg (byteOf · (prefixLen.toNat / 8)) hvalue
    simp only [hand, byteOf_value hi, byteOf_leadingOnes hi, hbytes _ hi, lt_irrefl, if_false,
      if_true] at hbyte
    exact UInt8.toBitVec_inj.mp (eq_zero_of_and_not hbyte)
  · intro hzero
    refine ⟨r, hr, eq_of_byteOf fun j hj => ?_, hport⟩
    rw [byteOf_value hj, hbytes j hj, hand, byteOf_value hj, byteOf_leadingOnes hj]
    split_ifs with hfull hbound
    · rw [BitVec.and_allOnes]
    · -- the byte of the boundary
      subst hbound
      rw [hzero, UInt8.zero_and]
      exact BitVec.zero_and.symm
    · exact BitVec.and_zero.symm

/-- From 128 bits on the boundary byte is not one of the address. -/
theorem subnetMask_undefined (hlen : 128 ≤ prefixLen.toNat) :
    subnetMask prefixLen = .error (.index (prefixLen.toNat / 8)) := by
  rw [subnetMask, createMask_ok]
  show (update _ _ _ >>= _) = _
  rw [update, dif_neg (by omega)]
  rfl

end

/-- **The operations are right only where the boundary byte is one of the address and is zero.** -/
theorem ipv6Masks_iff (addr : Vector UInt8 28) (prefixLen : UInt32) :
    MasksRight addr prefixLen ↔
      ∃ _ : prefixLen.toNat < 128, addr[8 + prefixLen.toNat / 8] = 0 := by
  rw [MasksRight]
  constructor
  · split_ifs with hlen
    · rintro ⟨⟨m, hm, -⟩, hnetwork, -⟩
      have hlt : prefixLen.toNat < 128 := by
        by_contra hlt
        rw [subnetMask_undefined (Nat.not_lt.mp hlt)] at hm
        cases hm
      exact ⟨hlt, (networkAddress_iff hlt).mp hnetwork⟩
    · rintro ⟨hsubnet, -⟩
      rw [subnetMask_undefined (by omega)] at hsubnet
      cases hsubnet
  · rintro ⟨hlt, hzero⟩
    rw [if_pos (by omega)]
    exact ⟨subnetMask_ok hlt, (networkAddress_iff hlt).mpr hzero, broadcastAddress_ok hlt⟩

/-- `fe80::215:5dff:fe88:d8a` keeps its ninth byte in the network of 64 bits. -/
theorem ipv6Masks_boundary : ¬ MasksRight
    #v[10, 0, 0, 0, 0, 0, 0, 0, 0xfe, 0x80, 0, 0, 0, 0, 0, 0, 0x02, 0x15, 0x5d, 0xff, 0xfe, 0x88,
      0x0d, 0x8a, 0, 0, 0, 0] 64 := by
  intro h
  have hnetwork := h.network
  rw [networkAddress_iff (by decide)] at hnetwork
  exact absurd hnetwork (by decide)

end IPv6Address

end Luwu
