import Mathlib.Algebra.Group.Int.Defs
import Luwu.ByteArray.Basic
import Luwu.Net.Masks

/-!
# Signed arithmetic of the zigzag encoders

`EncodeZigzag32` and `EncodeZigzag64` negate a negative value and double the others before they
convert them, in the signed type of the value.  Here that arithmetic is undefined when it leaves the
type; `encodeZigzag` takes it modulo `2 ^ w`.
-/

namespace Luwu.ByteArray

/-- The value of an operation on signed integers of `w` bits. -/
def signed (w : Nat) (v : Int) : Except Undefined (BitVec w) :=
  if -2 ^ (w - 1) ≤ v ∧ v < 2 ^ (w - 1) then .ok (BitVec.ofInt w v) else .error .overflow

/-- The body of `EncodeZigzag32` and of `EncodeZigzag64`. -/
def encodeZigzagSigned {w : Nat} (val : BitVec w) : Except Undefined (BitVec w) :=
  if val.toInt < 0 then do
    let minus ← signed w (-val.toInt)
    -- converted, so that the rest is unsigned arithmetic
    pure (minus * 2 - 1)
  else signed w (val.toInt * 2)

def encodeZigzag32 (val : BitVec 32) : Except Undefined (BitVec 32) := encodeZigzagSigned val
def encodeZigzag64 (val : BitVec 64) : Except Undefined (BitVec 64) := encodeZigzagSigned val

section

variable {w : Nat} {v : Int}

theorem signed_eq (hlo : -2 ^ w ≤ v) (hhi : v < 2 ^ w) :
    signed (w + 1) v = .ok (BitVec.ofInt (w + 1) v) := if_pos ⟨hlo, hhi⟩

theorem signed_overflow (h : v < -2 ^ w ∨ 2 ^ w ≤ v) :
    signed (w + 1) v = .error .overflow := by
  apply if_neg
  show ¬ (-2 ^ w ≤ v ∧ v < 2 ^ w)
  omega

/-- The values whose negative or whose double is in range. -/
def Encodable (val : BitVec (w + 1)) : Prop := -2 ^ w < val.toInt ∧ val.toInt * 2 < 2 ^ w

/-- Within these values nothing overflows, and the encoders compute what `encodeZigzag` does. -/
theorem encodeZigzagSigned_eq {val : BitVec (w + 1)} (h : Encodable val) :
    encodeZigzagSigned val = .ok (encodeZigzag val) := by
  obtain ⟨hlo, hhi⟩ := h
  have hsign : val.slt 0 = decide (val.toInt < 0) := by
    show decide (val.toInt < (0#(w + 1)).toInt) = _
    rw [BitVec.toInt_zero]
  rw [encodeZigzagSigned, encodeZigzag, hsign]
  by_cases hneg : val.toInt < 0
  · -- the negative of the least value is the one that is missing
    have hminus : BitVec.ofInt (w + 1) (-val.toInt) = -val := by
      rw [BitVec.ofInt_neg, BitVec.ofInt_toInt]
    rw [if_pos hneg, if_pos (decide_eq_true hneg), signed_eq (by omega) (by omega), hminus]
    rfl
  · have hdouble : BitVec.ofInt (w + 1) (val.toInt * 2) = val * 2 := by
      rw [BitVec.ofInt_mul, BitVec.ofInt_toInt]
      rfl
    rw [if_neg hneg, if_neg (by simpa using hneg), signed_eq (by omega) hhi, hdouble]

theorem encodeZigzagSigned_overflow {val : BitVec (w + 1)} (h : ¬ Encodable val) :
    encodeZigzagSigned val = .error .overflow := by
  have hmin : -2 ^ w ≤ val.toInt := BitVec.le_toInt val
  have hpos : (0 : Int) < 2 ^ w := Int.pow_pos (by decide)
  rw [Encodable] at h
  rw [encodeZigzagSigned]
  by_cases hneg : val.toInt < 0
  · rw [if_pos hneg, signed_overflow (by omega)]
    rfl
  · rw [if_neg hneg, signed_overflow (by omega)]

theorem encodeZigzagSigned_ne_iff (val : BitVec (w + 1)) :
    encodeZigzagSigned val ≠ .error .overflow ↔ Encodable val := by
  constructor
  · intro hdefined
    by_contra h
    exact hdefined (encodeZigzagSigned_overflow h)
  · intro h
    rw [encodeZigzagSigned_eq h]
    exact nofun

end

/-- **The signed arithmetic of the encoders stays in its type but for the least value and for those
of which the double is too large.** -/
theorem zigzag_in_range_iff (val : BitVec 32) (val' : BitVec 64) :
    (encodeZigzag32 val ≠ .error .overflow ↔ -2 ^ 31 < val.toInt ∧ val.toInt < 2 ^ 30) ∧
      (encodeZigzag64 val' ≠ .error .overflow ↔ -2 ^ 63 < val'.toInt ∧ val'.toInt < 2 ^ 62) := by
  constructor
  · rw [encodeZigzag32, encodeZigzagSigned_ne_iff, Encodable]
    omega
  · rw [encodeZigzag64, encodeZigzagSigned_ne_iff, Encodable]
    omega

theorem zigzag_out_of_range :
    encodeZigzag32 (BitVec.ofInt 32 (-2147483648)) = .error .overflow ∧
      encodeZigzag32 1073741824#32 = .error .overflow ∧
      encodeZigzag64 (BitVec.ofInt 64 (-9223372036854775808)) = .error .overflow ∧
      encodeZigzag64 4611686018427387904#64 = .error .overflow := by
  decide

end Luwu.ByteArray
