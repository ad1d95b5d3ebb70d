import Luwu.ByteArray.Invariant

/-!
# Integers in the unread bytes

The typed reads consume the unread bytes `[m_position, m_size)` from their front.  A fixed-width
integer is a byte string of known length; a variable-length one ends with the first byte below
`0x80`, or after as many bytes as the width has room for.
-/

namespace Luwu.ByteArray

open Lib

/-! ## Byte strings and numbers -/

theorem ofBytes_lt (d : List UInt8) : ofBytes d < 256 ^ d.length := by
  induction d with
  | nil => simp [ofBytes]
  | cons x d ih =>
    have hx := x.toNat_lt
    rw [ofBytes, List.length_cons, Nat.pow_succ]
    omega

theorem ofBytes_eq_zero {d : List UInt8} : ofBytes d = 0 ↔ d = List.replicate d.length 0 := by
  induction d with
  | nil => simp [ofBytes]
  | cons x d ih =>
    rw [ofBytes, List.length_cons, List.replicate_succ, List.cons.injEq, ← ih]
    constructor
    · intro h
      exact ⟨UInt8.toNat_inj.mp (by rw [UInt8.toNat_zero]; omega), by omega⟩
    · rintro ⟨rfl, hd⟩
      rw [hd, UInt8.toNat_zero]

theorem ofBytes_map_range (n v : Nat) :
    ofBytes ((List.range n).map fun i => UInt8.ofNat (v / 256 ^ i)) = v % 256 ^ n := by
  induction n generalizing v with
  | zero => simp [ofBytes, Nat.mod_one]
  | succ n ih =>
    have hshift : ((List.range n).map Nat.succ).map (fun i => UInt8.ofNat (v / 256 ^ i)) =
        (List.range n).map fun i => UInt8.ofNat (v / 256 / 256 ^ i) := by
      rw [List.map_map]
      refine List.map_congr_left fun i _ => ?_
      rw [Function.comp_apply, Nat.div_div_eq_div_mul, Nat.pow_succ']
    rw [List.range_succ_eq_map, List.map_cons, hshift, ofBytes, ih, Nat.pow_succ',
      Nat.mod_mul, Nat.pow_zero, Nat.div_one, UInt8.toNat_ofNat']

@[simp] theorem length_toBytes (n : Nat) (v : BitVec (8 * n)) : (toBytes n v).length = n := by
  simp [toBytes]

theorem two_pow_bytes (n : Nat) : 2 ^ (8 * n) = 256 ^ n := by
  rw [Nat.pow_mul]

theorem ofBytes_toBytes (n : Nat) (v : BitVec (8 * n)) : ofBytes (toBytes n v) = v.toNat := by
  rw [toBytes, ofBytes_map_range, Nat.mod_eq_of_lt]
  rw [← two_pow_bytes]
  exact v.isLt

theorem ofBytes_inj {d e : List UInt8} (hlen : d.length = e.length) (h : ofBytes d = ofBytes e) :
    d = e := by
  induction d generalizing e with
  | nil => exact (List.length_eq_zero_iff.mp hlen.symm).symm
  | cons x d ih =>
    cases e with
    | nil => cases hlen
    | cons y e =>
      have hx := x.toNat_lt
      have hy := y.toNat_lt
      rw [ofBytes, ofBytes] at h
      rw [UInt8.toNat_inj.mp (show x.toNat = y.toNat by omega),
        ih (Nat.succ.inj hlen) (by omega)]

theorem toNat_byteSwap (n : Nat) (v : BitVec (8 * n)) :
    (byteSwap n v).toNat = ofBytes (toBytes n v).reverse := by
  have h := ofBytes_lt (toBytes n v).reverse
  rw [List.length_reverse, length_toBytes, ← two_pow_bytes] at h
  rw [byteSwap, BitVec.toNat_ofNat, Nat.mod_eq_of_lt h]

theorem toBytes_byteSwap (n : Nat) (v : BitVec (8 * n)) :
    toBytes n (byteSwap n v) = (toBytes n v).reverse := by
  apply ofBytes_inj
  · simp
  · rw [ofBytes_toBytes, toNat_byteSwap]

theorem byteSwap_byteSwap (n : Nat) (v : BitVec (8 * n)) : byteSwap n (byteSwap n v) = v := by
  apply BitVec.eq_of_toNat_eq
  rw [toNat_byteSwap, toBytes_byteSwap, List.reverse_reverse, ofBytes_toBytes]

theorem byteSwap_eq_zero {n : Nat} {v : BitVec (8 * n)} : byteSwap n v = 0 ↔ v = 0 := by
  have hswap : byteSwap n v = 0 ↔ ofBytes (toBytes n v).reverse = 0 := by
    rw [← toNat_byteSwap, ← BitVec.toNat_inj]
    simp
  rw [hswap, ofBytes_eq_zero, List.length_reverse, length_toBytes,
    List.reverse_eq_iff, List.reverse_replicate]
  constructor
  · intro h
    have hz : ofBytes (toBytes n v) = 0 := by
      rw [ofBytes_eq_zero, length_toBytes]
      exact h
    rw [ofBytes_toBytes] at hz
    exact BitVec.eq_of_toNat_eq (by rw [hz]; simp)
  · rintro rfl
    have hz : ofBytes (toBytes n 0) = 0 := by
      rw [ofBytes_toBytes]
      simp
    rwa [ofBytes_eq_zero, length_toBytes] at hz

/-! ## The unread bytes -/

/-- The bytes `[m_position, m_size)`. -/
def unread (b : ByteArray) : List UInt8 :=
  ((flat b.nodes).drop b.position).take (b.size - b.position)

theorem length_unread {b : ByteArray} (h : Inv b) : b.unread.length = b.size - b.position := by
  have hpl := h.position_le
  have hsl := h.size_le
  rw [unread, List.length_take, List.length_drop, h.length_flat]
  omega

theorem unread_advance {b : ByteArray} (n : Nat) : (b.advance n).unread = b.unread.drop n := by
  simp only [unread, advance]
  rw [List.drop_take, List.drop_drop, Nat.sub_add_eq]

theorem read_short {b : ByteArray} (h : Inv b) {n : Nat} (hn : b.unread.length < n) :
    read n b = .thrown (.outOfRange "not enough length") b := by
  rw [length_unread h] at hn
  rw [read_eq h, if_pos hn]

theorem read_ok {b : ByteArray} (h : Inv b) {n : Nat} (hpos : 0 < n)
    (hn : n ≤ b.unread.length) : read n b = .ok (b.unread.take n) (b.advance n) := by
  rw [length_unread h] at hn
  rw [read_eq h, if_neg (by omega), if_neg (by omega), unread, List.take_take,
    Nat.min_eq_left hn]

theorem advance_inv_of_le {b : ByteArray} (h : Inv b) {n : Nat} (hn : n ≤ b.unread.length) :
    Inv (b.advance n) := by
  rw [length_unread h] at hn
  have := h.position_le
  exact advance_inv h (by omega)

/-- The value of `n` bytes read in the byte order `endian`. -/
def fixValue (endian : Endian) (n : Nat) (d : List UInt8) : BitVec (8 * n) :=
  if endian = byteOrder then BitVec.ofNat (8 * n) (ofBytes d)
  else byteSwap n (BitVec.ofNat (8 * n) (ofBytes d))

theorem fixValue_eq_zero (endian : Endian) {n : Nat} {d : List UInt8} (hd : d.length = n) :
    fixValue endian n d = 0 ↔ d = List.replicate n 0 := by
  have hv : BitVec.ofNat (8 * n) (ofBytes d) = 0 ↔ d = List.replicate n 0 := by
    have hlt : ofBytes d < 2 ^ (8 * n) := by
      have := ofBytes_lt d
      rwa [hd, ← two_pow_bytes] at this
    rw [← hd, ← ofBytes_eq_zero, ← BitVec.toNat_inj, BitVec.toNat_ofNat, hd,
      Nat.mod_eq_of_lt hlt]
    simp
  unfold fixValue
  split
  · exact hv
  · rw [byteSwap_eq_zero]
    exact hv

theorem readFix_short {b : ByteArray} (h : Inv b) {n : Nat} (hn : b.unread.length < n) :
    readFix n b = .thrown (.outOfRange "not enough length") b := by
  simp only [readFix, Prog.bind_apply, read_short h hn, Outcome.bind_thrown]

theorem readFix_ok {b : ByteArray} (h : Inv b) {n : Nat} (hpos : 0 < n)
    (hn : n ≤ b.unread.length) :
    readFix n b = .ok (fixValue b.endian n (b.unread.take n)) (b.advance n) := by
  simp only [readFix, Prog.bind_apply, read_ok h hpos hn, Outcome.bind_ok, Prog.gets_apply,
    Prog.pure_apply]
  rfl

theorem readFixUint8_short {b : ByteArray} (h : Inv b) (hn : b.unread = []) :
    readFixUint8 b = .thrown (.outOfRange "not enough length") b := by
  simp only [readFixUint8, Prog.bind_apply, read_short h (by rw [hn]; exact Nat.one_pos),
    Outcome.bind_thrown]

theorem readFixUint8_ok {b : ByteArray} (h : Inv b) {x : UInt8} {d : List UInt8}
    (hn : b.unread = x :: d) : readFixUint8 b = .ok x.toBitVec (b.advance 1) := by
  have hx : BitVec.ofNat 8 (ofBytes [x]) = x.toBitVec := by
    apply BitVec.eq_of_toNat_eq
    rw [BitVec.toNat_ofNat]
    simp only [ofBytes]
    exact Nat.mod_eq_of_lt x.toNat_lt
  have hread : read 1 b = .ok [x] (b.advance 1) := by
    rw [read_ok h Nat.one_pos (by rw [hn]; simp), hn]
    rfl
  simp only [readFixUint8, Prog.bind_apply, hread, Outcome.bind_ok, Prog.pure_apply, hx]

/-! ## Variable-length integers -/

/-- What the loop of `readUint32` and `readUint64` makes of the bytes ahead: the value and the
number of bytes, `none` when the bytes run out. -/
def decodeVar {w : Nat} : List Nat → BitVec w → List UInt8 → Option (BitVec w × Nat)
  | [], result, _ => some (result, 0)
  | _ :: _, _, [] => none
  | i :: is, result, x :: d =>
    if x.toBitVec < 0x80 then
      some (result ||| (x.toBitVec.setWidth w <<< i), 1)
    else
      match decodeVar is (result ||| ((x.toBitVec &&& 0x7f).setWidth w <<< i)) d with
      | none => none
      | some (v, n) => some (v, n + 1)

theorem decodeVar_le {w : Nat} {is : List Nat} {result v : BitVec w} {d : List UInt8} {n : Nat}
    (h : decodeVar is result d = some (v, n)) : n ≤ d.length := by
  induction is generalizing result d n with
  | nil =>
    cases h
    exact Nat.zero_le _
  | cons i is ih =>
    cases d with
    | nil => cases h
    | cons x d =>
      rw [decodeVar] at h
      split at h
      · cases h
        simp
      · split at h
        · cases h
        · rename_i v' n' hrec
          cases h
          have := ih hrec
          simp only [List.length_cons]
          omega

/-- The loop reads what `decodeVar` decodes, byte by byte. -/
theorem readVarLoop_eq {w : Nat} {b : ByteArray} (h : Inv b) (is : List Nat) (result : BitVec w) :
    (∀ v n, decodeVar is result b.unread = some (v, n) →
      readVarLoop is result b = .ok v (b.advance n)) ∧
    (decodeVar is result b.unread = none →
      ∃ b', readVarLoop is result b = .thrown (.outOfRange "not enough length") b') := by
  induction is generalizing result b with
  | nil =>
    refine ⟨?_, fun hd => by cases hd⟩
    intro v n hd
    cases hd
    have hadv : b.advance 0 = b := by
      rw [advance, Nat.add_zero, ← h.cur_eq]
    rw [hadv]
    rfl
  | cons i is ih =>
    cases hu : b.unread with
    | nil =>
      -- the bytes have run out, and `readFixUint8` throws
      refine ⟨fun v n hd => (by cases hd), fun _ => ⟨b, ?_⟩⟩
      simp only [readVarLoop, Prog.bind_apply, readFixUint8_short h hu, Outcome.bind_thrown]
    | cons x d =>
      have hinv : Inv (b.advance 1) := advance_inv_of_le h (by rw [hu]; simp)
      have hrest : (b.advance 1).unread = d := by
        rw [unread_advance, hu, List.drop_one, List.tail_cons]
      have hadv : ∀ n, (b.advance 1).advance n = b.advance (n + 1) := by
        intro n
        simp only [advance, Nat.add_assoc, Nat.add_comm 1 n]
      have hstep : readVarLoop (i :: is) result b =
          if x.toBitVec < 0x80 then
            .ok (result ||| (x.toBitVec.setWidth w <<< i)) (b.advance 1)
          else
            readVarLoop is (result ||| ((x.toBitVec &&& 0x7f).setWidth w <<< i))
              (b.advance 1) := by
        simp only [readVarLoop, Prog.bind_apply, readFixUint8_ok h hu, Outcome.bind_ok]
        split
        · rfl
        · rfl
      obtain ⟨hok, hno⟩ := ih hinv (result ||| ((x.toBitVec &&& 0x7f).setWidth w <<< i))
      rw [hrest] at hok hno
      rw [hstep, decodeVar]
      by_cases hx : x.toBitVec < 0x80
      · -- the last byte of the number
        rw [if_pos hx, if_pos hx]
        refine ⟨?_, fun hd => by cases hd⟩
        intro v n hd
        cases hd
        rfl
      · -- seven bits, and more to come
        rw [if_neg hx, if_neg hx]
        cases hd : decodeVar is (result ||| ((x.toBitVec &&& 0x7f).setWidth w <<< i)) d with
        | none => exact ⟨fun v n hc => (by cases hc), fun _ => hno hd⟩
        | some p =>
          obtain ⟨v', n'⟩ := p
          refine ⟨?_, fun hc => by cases hc⟩
          intro v n hc
          cases hc
          rw [hok v' n' hd, hadv]

end Luwu.ByteArray
