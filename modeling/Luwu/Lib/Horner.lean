import Mathlib.Algebra.Ring.Divisibility.Basic
import Mathlib.Algebra.Ring.Parity
import Mathlib.Tactic.Ring

/-!
# Horner's scheme

Polynomials by their coefficients, the one of the highest power first, as a loop
`h = x * h + c` computes them.
-/

namespace Luwu.Lib

variable {R : Type} [CommRing R]

/-- The polynomial with these coefficients. -/
def horner (x : R) : List R → R
  | [] => 0
  | c :: cs => c * x ^ cs.length + horner x cs

/-- `1 + x + … + x ^ (n - 1)`. -/
def powerSum (x : R) (n : Nat) : R := horner x (List.replicate n 1)

/-- The loop, from `h` on. -/
theorem foldl_eq_horner (x h : R) (cs : List R) :
    cs.foldl (fun h c => x * h + c) h = h * x ^ cs.length + horner x cs := by
  induction cs generalizing h with
  | nil => rw [List.foldl_nil, List.length_nil, pow_zero, mul_one, horner, add_zero]
  | cons c cs ih =>
    rw [List.foldl_cons, ih, List.length_cons, horner, pow_succ]
    ring

theorem horner_append (x : R) (cs ds : List R) :
    horner x (cs ++ ds) = horner x cs * x ^ ds.length + horner x ds := by
  induction cs with
  | nil => rw [List.nil_append, horner, zero_mul, zero_add]
  | cons c cs ih =>
    rw [List.cons_append, horner, horner, ih, List.length_append, pow_add]
    ring

theorem powerSum_succ (x : R) (n : Nat) : powerSum x (n + 1) = x ^ n + powerSum x n := by
  rw [powerSum, List.replicate_succ, horner, List.length_replicate, one_mul]
  rfl

theorem powerSum_add (x : R) (m n : Nat) :
    powerSum x (m + n) = powerSum x m * x ^ n + powerSum x n := by
  rw [powerSum, ← List.replicate_append_replicate, horner_append, List.length_replicate]
  rfl

/-- A constant taken from every coefficient. -/
theorem horner_map_sub (x a : R) (cs : List R) :
    horner x (cs.map (· - a)) = horner x cs - a * powerSum x cs.length := by
  induction cs with
  | nil =>
    rw [powerSum, List.map_nil, List.length_nil, List.replicate_zero, horner, mul_zero, sub_zero]
  | cons c cs ih =>
    rw [List.map_cons, horner, horner, ih, List.length_map, List.length_cons, powerSum_succ]
    ring

theorem horner_replicate (x a : R) (n : Nat) :
    horner x (List.replicate n a) = a * powerSum x n := by
  induction n with
  | zero => exact (mul_zero a).symm
  | succ n ih =>
    rw [List.replicate_succ, horner, ih, powerSum_succ, List.length_replicate]
    ring

/-! ## Powers of an odd number -/

section

variable {x : R}

theorem two_pow_dvd_powerSum (hx : Odd x) (k : Nat) : (2 : R) ^ k ∣ powerSum x (2 ^ k) := by
  induction k with
  | zero =>
    rw [pow_zero]
    exact one_dvd _
  | succ k ih =>
    -- the upper half of the sum is a multiple of the lower one
    have hhalves : powerSum x (2 ^ (k + 1)) = powerSum x (2 ^ k) * (x ^ 2 ^ k + 1) := by
      rw [pow_succ, Nat.mul_two, powerSum_add]
      ring
    rw [hhalves, pow_succ]
    exact mul_dvd_mul ih (hx.pow.add_odd odd_one).two_dvd

theorem two_pow_dvd_powerSum_mul (hx : Odd x) (k q : Nat) :
    (2 : R) ^ k ∣ powerSum x (2 ^ k * q) := by
  induction q with
  | zero => exact dvd_zero _
  | succ q ih =>
    rw [Nat.mul_succ, powerSum_add]
    exact dvd_add (ih.mul_right _) (two_pow_dvd_powerSum hx k)

/-- Modulo `2 ^ k` the sum depends on the number of its terms modulo `2 ^ k`. -/
theorem two_pow_dvd_powerSum_sub (hx : Odd x) (k n : Nat) :
    (2 : R) ^ k ∣ powerSum x n - powerSum x (n % 2 ^ k) := by
  have hsplit : powerSum x n =
      powerSum x (2 ^ k * (n / 2 ^ k)) * x ^ (n % 2 ^ k) + powerSum x (n % 2 ^ k) := by
    rw [← powerSum_add, Nat.div_add_mod]
  rw [hsplit, add_sub_cancel_right]
  exact (two_pow_dvd_powerSum_mul hx k _).mul_right _

end

end Luwu.Lib
