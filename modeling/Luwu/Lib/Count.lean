import Mathlib.Algebra.BigOperators.Fin
import Mathlib.Algebra.Order.BigOperators.Group.Finset

/-!
# Sums over components

A state with finitely many components of one kind (workers, table entries) has quantities that are
sums over them; a step that changes one component changes the sum by that component's part.
-/

namespace Luwu.Lib

variable {ι β : Type*} [Fintype ι] [DecidableEq ι]

theorem sum_update (f : β → Nat) (g : ι → β) (i : ι) (b : β) :
    (∑ j, f (Function.update g i b j)) + f (g i) = (∑ j, f (g j)) + f b := by
  have hnew := Finset.add_sum_erase Finset.univ (fun j => f (Function.update g i b j))
    (Finset.mem_univ i)
  have hold := Finset.add_sum_erase Finset.univ (fun j => f (g j)) (Finset.mem_univ i)
  have hrest : ∑ j ∈ Finset.univ.erase i, f (Function.update g i b j) =
      ∑ j ∈ Finset.univ.erase i, f (g j) := by
    refine Finset.sum_congr rfl fun j hj => ?_
    rw [Function.update_of_ne (Finset.ne_of_mem_erase hj)]
  simp only [Function.update_self] at hnew
  omega

omit [DecidableEq ι] in
theorem le_sum (f : ι → Nat) (i : ι) : f i ≤ ∑ j, f j :=
  Finset.single_le_sum (fun j _ => Nat.zero_le (f j)) (Finset.mem_univ i)

end Luwu.Lib
