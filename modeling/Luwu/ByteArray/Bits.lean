import Mathlib.Data.Nat.Bitwise
import Luwu.ByteArray.Integers

/-!
# The bits of a stored integer

Bit `i` of an integer is bit `i % 8` of its byte `i / 8`, counted from the end the host order starts
with.  Swapping the bytes therefore moves bits without mixing them, and goes through the bitwise
operations.
-/

namespace Luwu.ByteArray

/-- Bit `i` of the value of the bytes is bit `i % 8` of byte `i / 8`. -/
theorem testBit_ofBytes (d : List UInt8) (i : Nat) :
    (ofBytes d).testBit i = (d.getD (i / 8) 0).toNat.testBit (i % 8) := by
  induction d generalizing i with
  | nil => simp [ofBytes]
  | cons b d ih =>
    have hsum : ofBytes (b :: d) = 2 ^ 8 * ofBytes d + b.toNat := by
      rw [ofBytes]
      omega
    rw [hsum, Nat.testBit_two_pow_mul_add _ b.toNat_lt]
    by_cases hi : i < 8
    · rw [if_pos hi, Nat.div_eq_of_lt hi, Nat.mod_eq_of_lt hi, List.getD_cons_zero]
    · obtain ⟨j, rfl⟩ := Nat.exists_eq_add_of_le (Nat.not_lt.mp hi)
      rw [if_neg hi, ih, Nat.add_sub_cancel_left, Nat.add_div_left j (by decide),
        Nat.add_mod_left, List.getD_cons_succ]

variable {n : Nat}

/-- Swapping the bytes reverses their order and keeps the bits within each. -/
theorem getLsbD_byteSwap (v : BitVec (8 * n)) {i : Nat} (hi : i < 8 * n) :
    (byteSwap n v).getLsbD i = v.getLsbD (8 * (n - 1 - i / 8) + i % 8) := by
  have hlt : i / 8 < n := by omega
  have hrev : (toBytes n v).reverse.getD (i / 8) 0 = (toBytes n v).getD (n - 1 - i / 8) 0 := by
    rw [List.getD_reverse _ (by rwa [length_toBytes]), length_toBytes]
  have hdiv : (8 * (n - 1 - i / 8) + i % 8) / 8 = n - 1 - i / 8 := by omega
  have hmod : (8 * (n - 1 - i / 8) + i % 8) % 8 = i % 8 := by omega
  rw [BitVec.getLsbD, toNat_byteSwap, testBit_ofBytes, hrev, BitVec.getLsbD, ← ofBytes_toBytes n v,
    testBit_ofBytes, hdiv, hmod]

theorem byteSwap_or (v w : BitVec (8 * n)) :
    byteSwap n (v ||| w) = byteSwap n v ||| byteSwap n w := by
  refine BitVec.eq_of_getLsbD_eq fun i hi => ?_
  rw [getLsbD_byteSwap _ hi, BitVec.getLsbD_or, BitVec.getLsbD_or, getLsbD_byteSwap _ hi,
    getLsbD_byteSwap _ hi]

theorem byteSwap_and (v w : BitVec (8 * n)) :
    byteSwap n (v &&& w) = byteSwap n v &&& byteSwap n w := by
  refine BitVec.eq_of_getLsbD_eq fun i hi => ?_
  rw [getLsbD_byteSwap _ hi, BitVec.getLsbD_and, BitVec.getLsbD_and, getLsbD_byteSwap _ hi,
    getLsbD_byteSwap _ hi]

theorem byteSwap_not (v : BitVec (8 * n)) : byteSwap n (~~~v) = ~~~byteSwap n v := by
  refine BitVec.eq_of_getLsbD_eq fun i hi => ?_
  have hi' : 8 * (n - 1 - i / 8) + i % 8 < 8 * n := by omega
  rw [getLsbD_byteSwap _ hi, BitVec.getLsbD_not, BitVec.getLsbD_not, getLsbD_byteSwap _ hi,
    decide_eq_true hi, decide_eq_true hi']

end Luwu.ByteArray
