import Mathlib.Data.List.Basic

/-!
# Standing entries of a history

A history is a list of entries, oldest first, in which later entries undo earlier ones.  The entries
that nothing has undone are what a store that is updated in place is expected to hold.
-/

namespace Luwu.Lib

variable {α : Type*} {undoes : α → α → Prop} {ops : List α} {o a : α} {i j : Nat}

/-- Entry `i` of the history is `a`, and no later entry undoes it. -/
def Standing (undoes : α → α → Prop) (ops : List α) (i : Nat) (a : α) : Prop :=
  ops[i]? = some a ∧ ∀ j o, i < j → ops[j]? = some o → ¬ undoes o a

theorem Standing.lt (h : Standing undoes ops i a) : i < ops.length := by
  by_contra hge
  have hnone : ops[i]? = none := List.getElem?_eq_none (by omega)
  rw [h.1] at hnone
  cases hnone

theorem not_standing_nil : ¬ Standing undoes [] i a := fun h => absurd h.lt (Nat.not_lt_zero i)

/-- What stands after one more entry: that entry, and what stood and is not undone by it. -/
theorem standing_concat :
    Standing undoes (ops ++ [o]) i a ↔
      (i = ops.length ∧ a = o) ∨ (Standing undoes ops i a ∧ ¬ undoes o a) := by
  have hold : ∀ {j : Nat}, j < ops.length → (ops ++ [o])[j]? = ops[j]? := fun h =>
    List.getElem?_append_left h
  have hnew : (ops ++ [o])[ops.length]? = some o := List.getElem?_concat_length
  constructor
  · intro h
    have hlt := h.lt
    rw [List.length_append, List.length_singleton] at hlt
    -- the entry at the end is the new one
    by_cases hi : i = ops.length
    · have hget := h.1
      rw [hi, hnew] at hget
      cases hget
      exact .inl ⟨hi, rfl⟩
    · refine .inr ⟨⟨?_, ?_⟩, h.2 ops.length o (by omega) hnew⟩
      · rw [← hold (by omega)]
        exact h.1
      · intro j o' hij hget
        have hj : j < ops.length := (List.getElem?_eq_some_iff.mp hget).1
        exact h.2 j o' hij (by rw [hold hj]; exact hget)
  · intro h
    rcases h with ⟨hi, hao⟩ | ⟨hstand, hundo⟩
    · refine ⟨by rw [hi, hao]; exact hnew, ?_⟩
      intro j o' hij hget
      have hj := (List.getElem?_eq_some_iff.mp hget).1
      rw [List.length_append, List.length_singleton] at hj
      omega
    · refine ⟨by rw [hold hstand.lt]; exact hstand.1, ?_⟩
      intro j o' hij hget
      by_cases hj : j < ops.length
      · rw [hold hj] at hget
        exact hstand.2 j o' hij hget
      · -- the only later entry is the new one
        have hlt := (List.getElem?_eq_some_iff.mp hget).1
        rw [List.length_append, List.length_singleton] at hlt
        rw [show j = ops.length by omega, hnew] at hget
        cases hget
        exact hundo

/-- An entry that does not undo `a` and is not `a` changes nothing about it. -/
theorem standing_concat_of_ne (hne : a ≠ o) (hundo : ¬ undoes o a) :
    Standing undoes (ops ++ [o]) i a ↔ Standing undoes ops i a := by
  rw [standing_concat]
  constructor
  · intro h
    rcases h with ⟨-, hao⟩ | ⟨hstand, -⟩
    · exact absurd hao hne
    · exact hstand
  · intro h
    exact .inr ⟨h, hundo⟩

theorem exists_standing_concat_of_ne (hne : a ≠ o) (hundo : ¬ undoes o a) :
    (∃ i, Standing undoes (ops ++ [o]) i a) ↔ ∃ i, Standing undoes ops i a :=
  exists_congr fun _ => standing_concat_of_ne hne hundo

/-- After an entry that undoes `a` only the entry itself can stand as `a`. -/
theorem exists_standing_concat_of_undoes (hundo : undoes o a) :
    (∃ i, Standing undoes (ops ++ [o]) i a) ↔ a = o := by
  constructor
  · intro h
    obtain ⟨i, h⟩ := h
    rcases standing_concat.mp h with ⟨-, hao⟩ | ⟨-, hnot⟩
    · exact hao
    · exact absurd hundo hnot
  · intro hao
    exact ⟨ops.length, standing_concat.mpr (.inl ⟨rfl, hao⟩)⟩

/-- Of two standing entries the later one does not undo the earlier one. -/
theorem Standing.not_undoes {b : α} (ha : Standing undoes ops i a) (hb : Standing undoes ops j b)
    (hij : i < j) : ¬ undoes b a :=
  ha.2 j b hij hb.1

end Luwu.Lib
