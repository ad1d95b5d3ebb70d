import Mathlib.Algebra.Group.Int.Defs
import Mathlib.Algebra.Group.Nat.Defs
import Mathlib.Algebra.Ring.Int.Defs
import Luwu.Lib.Bytes
import Luwu.Lib.Horner

/-!
# The quick hash

`quick_hash` multiplies by 31 and adds the next character.  The overload for a buffer does not
advance its pointer.
-/

namespace Luwu.HashUtil

open Lib (horner powerSum)

/-! ## The overloads -/

/-- `h = 31 * h + *str`, where the `char` is signed and becomes an `unsigned int`. -/
def hashStep (h : UInt32) (c : UInt8) : UInt32 := 31 * h + c.toInt8.toInt32.toUInt32

/-- `for (; *str; str++)`, on what is left of the string. -/
def quickHashLoop (h : UInt32) : Bytes → UInt32
  | [] => h
  | c :: str => if c = 0 then h else quickHashLoop (hashStep h c) str

/-- `quick_hash (const char *)`. -/
def quickHash (str : Bytes) : UInt32 := quickHashLoop 0 str

/-- `for (uint32_t i = 0; i < size; ++i)`, with the turns that are left.  `str` stays where it is.
-/
def quickHashBufferLoop (str : Bytes) : Nat → UInt32 → UInt32
  | 0, h => h
  | turns + 1, h => quickHashBufferLoop str turns (hashStep h (str.headD 0))

/-- `quick_hash (const void *, uint32_t)`, for the memory that begins at `tmp`. -/
def quickHashBuffer (tmp : Bytes) (size : UInt32) : UInt32 := quickHashBufferLoop tmp size.toNat 0

/-! ## What they compute -/

/-- The value of a `char`. -/
def charValue (c : UInt8) : Int := c.toInt8.toInt

theorem hashStep_ofInt (h : Int) (c : UInt8) :
    hashStep (UInt32.ofInt h) c = UInt32.ofInt (31 * h + charValue c) := by
  have hall : ∀ c : UInt8, c.toInt8.toInt32.toUInt32 = UInt32.ofInt (charValue c) :=
    forall_byte (by decide +kernel)
  rw [hashStep, hall, UInt32.ofInt_add, UInt32.ofInt_mul]
  rfl

/-- The loop over the characters, modulo `2 ^ 32`. -/
theorem foldl_hashStep (h : Int) (s : Bytes) :
    s.foldl hashStep (UInt32.ofInt h) =
      UInt32.ofInt (h * 31 ^ s.length + horner 31 (s.map charValue)) := by
  have hloop : s.foldl hashStep (UInt32.ofInt h) =
      UInt32.ofInt ((s.map charValue).foldl (fun h c => 31 * h + c) h) := by
    induction s generalizing h with
    | nil => rfl
    | cons c s ih =>
      rw [List.foldl_cons, hashStep_ofInt, ih]
      rfl
  rw [hloop, Lib.foldl_eq_horner, List.length_map]

theorem quickHashLoop_eq {s : Bytes} (hzero : 0 ∉ s) (h : UInt32) :
    quickHashLoop h s = s.foldl hashStep h := by
  induction s generalizing h with
  | nil => rfl
  | cons c s ih =>
    obtain ⟨hc, hs⟩ := List.ne_and_not_mem_of_not_mem_cons hzero
    rw [quickHashLoop, if_neg (Ne.symm hc), ih hs]
    rfl

/-- The overload for a C string computes the polynomial of its characters. -/
theorem quickHash_eq {s : Bytes} (hzero : 0 ∉ s) :
    quickHash s = UInt32.ofInt (horner 31 (s.map charValue)) := by
  have h := foldl_hashStep 0 s
  rw [Int.zero_mul, Int.zero_add] at h
  rw [quickHash, quickHashLoop_eq hzero]
  exact h

theorem quickHashBufferLoop_eq (s : Bytes) (turns : Nat) (h : UInt32) :
    quickHashBufferLoop s turns h = (List.replicate turns (s.headD 0)).foldl hashStep h := by
  induction turns generalizing h with
  | zero => rfl
  | succ turns ih =>
    rw [quickHashBufferLoop, ih]
    rfl

/-- The overload for a buffer computes that of as many copies of the first one. -/
theorem quickHashBuffer_eq (s : Bytes) (size : UInt32) :
    quickHashBuffer s size = UInt32.ofInt (charValue (s.headD 0) * powerSum 31 size.toNat) := by
  have h := foldl_hashStep 0 (List.replicate size.toNat (s.headD 0))
  rw [Int.zero_mul, Int.zero_add, List.map_replicate, Lib.horner_replicate] at h
  rw [quickHashBuffer, quickHashBufferLoop_eq]
  exact h

/-! ## When they agree -/

theorem ofInt_eq_iff (x y : Int) : UInt32.ofInt x = UInt32.ofInt y ↔ 2 ^ 32 ∣ x - y := by
  have hmod (z : Int) : ((UInt32.ofInt z).toNat : Int) = z % 2 ^ 32 := by
    have hpos := Int.emod_nonneg z (show (2 : Int) ^ 32 ≠ 0 by decide)
    have hlt := Int.emod_lt_of_pos z (show (0 : Int) < 2 ^ 32 by decide)
    rw [UInt32.ofInt, UInt32.toNat_ofNat_of_lt' (by rw [UInt32.size]; omega),
      Int.toNat_of_nonneg hpos]
  rw [Int.dvd_iff_emod_eq_zero, ← Int.emod_eq_emod_iff_emod_sub_eq_zero, ← hmod, ← hmod,
    Int.natCast_inj, UInt32.toNat_inj]

/-- `quick_hash (s.c_str ())` and `quick_hash (s.data (), s.size ())` are the polynomial of the
characters of `s`. -/
def HashesAgree (s : Bytes) : Prop :=
  quickHash s = quickHashBuffer s (UInt32.ofNat s.length) ∧
    quickHash s = UInt32.ofInt (horner 31 (s.map charValue))

/-- What the characters differ by from the first one, weighted by the powers of 31. -/
def differences (s : Bytes) : Int := horner 31 (s.map fun c => charValue c - charValue (s.headD 0))

/-- **The overloads agree on a string if its differences from the first character cancel out.** -/
theorem hashesAgree_iff {s : Bytes} (hzero : 0 ∉ s) :
    HashesAgree s ↔ (2 : Int) ^ 32 ∣ differences s := by
  have hsum : (2 : Int) ^ 32 ∣ powerSum 31 s.length - powerSum 31 (s.length % 2 ^ 32) :=
    Lib.two_pow_dvd_powerSum_sub (by decide) 32 s.length
  have hsub : differences s =
      horner 31 (s.map charValue) - charValue (s.headD 0) * powerSum 31 s.length := by
    have h := Lib.horner_map_sub 31 (charValue (s.headD 0)) (s.map charValue)
    rw [List.map_map, List.length_map] at h
    exact h
  -- a length of 2 ^ 32 or more is cut, which makes no difference to the sum
  have hcut : differences s =
      (horner 31 (s.map charValue) - charValue (s.headD 0) * powerSum 31 (s.length % 2 ^ 32)) -
      charValue (s.headD 0) * (powerSum 31 s.length - powerSum 31 (s.length % 2 ^ 32)) := by
    rw [hsub]
    ring
  have hagree : HashesAgree s ↔ (2 : Int) ^ 32 ∣ horner 31 (s.map charValue) -
      charValue (s.headD 0) * powerSum 31 (s.length % 2 ^ 32) := by
    -- the overload for a C string is always right
    rw [HashesAgree, and_iff_left (quickHash_eq hzero), quickHash_eq hzero, quickHashBuffer_eq,
      UInt32.toNat_ofNat', ofInt_eq_iff]
  rw [hagree, hcut]
  exact (dvd_sub_left (hsum.mul_left _)).symm

theorem hashesAgree_cancel : HashesAgree (ascii "aaa") ∧ HashesAgree (ascii "bcC") :=
  ⟨(hashesAgree_iff (by decide)).mpr (by decide), (hashesAgree_iff (by decide)).mpr (by decide)⟩

theorem not_hashesAgree_ab : 0 ∉ ascii "ab" ∧ ¬ HashesAgree (ascii "ab") := by
  constructor
  · decide
  · rintro ⟨h, -⟩
    revert h
    decide

end Luwu.HashUtil
