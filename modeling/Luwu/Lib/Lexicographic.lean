import Mathlib.Order.Defs.Unbundled

/-!
# Texts in lexicographic order

A comparison up to the end of the shorter text, with the shorter one first where it finds no
difference, is the lexicographic order.  An order of the texts of some objects orders the objects up
to having the same text.
-/

namespace Luwu.Lib

section

variable {α : Type*} [LT α] [DecidableLT α]

/-- `memcmp`: the order at the first difference. -/
def memcmp : List α → List α → Ordering
  | a :: w, b :: w' => if a < b then .lt else if b < a then .gt else memcmp w w'
  | _, _ => .eq

/-- Nothing behind the shorter text is compared. -/
theorem memcmp_take (w w' : List α) :
    memcmp (w.take (min w.length w'.length)) (w'.take (min w.length w'.length)) = memcmp w w' := by
  induction w generalizing w' with
  | nil => simp [memcmp]
  | cons a w ih =>
    cases w' with
    | nil => simp [memcmp]
    | cons b w' =>
      rw [List.length_cons, List.length_cons, Nat.succ_min_succ, List.take_succ_cons,
        List.take_succ_cons, memcmp, ih, memcmp]

variable [Std.Irrefl fun a b : α => a < b]

theorem memcmp_self (w : List α) : memcmp w w = .eq := by
  induction w with
  | nil => rfl
  | cons a w ih => rw [memcmp, if_neg (Std.Irrefl.irrefl a), if_neg (Std.Irrefl.irrefl a), ih]

variable [Std.Trichotomous fun a b : α => a < b]

/-- What a comparison tells about the lexicographic order. -/
theorem memcmp_cases (w w' : List α) :
    (memcmp w w' = .lt → w < w') ∧ (memcmp w w' = .gt → w' < w) ∧
      (memcmp w w' = .eq → (w.length < w'.length → w < w') ∧ (w.length = w'.length → w = w') ∧
        (w'.length < w.length → w' < w)) := by
  induction w generalizing w' with
  | nil =>
    cases w' with
    | nil => simp [memcmp]
    | cons b w' => simp [memcmp]
  | cons a w ih =>
    cases w' with
    | nil => simp [memcmp]
    | cons b w' =>
      obtain ⟨hlt, hgt, heq⟩ := ih w'
      rw [memcmp]
      split
      · next hab => exact ⟨fun _ => List.cons_lt_cons_iff.mpr (.inl hab), by simp, by simp⟩
      · next hab =>
        split
        · next hba => exact ⟨by simp, fun _ => List.cons_lt_cons_iff.mpr (.inl hba), by simp⟩
        · next hba =>
          obtain rfl : a = b := Std.Trichotomous.trichotomous a b hab hba
          simpa using ⟨hlt, hgt, heq⟩

theorem memcmp_eq_iff {w w' : List α} (hlen : w.length = w'.length) :
    memcmp w w' = .eq ↔ w = w' := by
  constructor
  · exact fun h => ((memcmp_cases w w').2.2 h).2.1 hlen
  · rintro rfl
    exact memcmp_self w

/-- The comparison with the shorter text first is the lexicographic order. -/
theorem memcmp_lt_iff [Std.Asymm fun a b : α => a < b] (w w' : List α) :
    memcmp w w' = .lt ∨ (memcmp w w' = .eq ∧ w.length < w'.length) ↔ w < w' := by
  obtain ⟨hlt, hgt, heq⟩ := memcmp_cases w w'
  constructor
  · rintro (h | ⟨h, hlen⟩)
    · exact hlt h
    · exact (heq h).1 hlen
  · intro h
    cases hcmp : memcmp w w' with
    | lt => exact .inl rfl
    | gt => exact absurd (hgt hcmp) (List.lt_asymm h)
    | eq =>
      obtain ⟨-, hsame, hlonger⟩ := heq hcmp
      right
      refine ⟨rfl, Nat.lt_of_not_le fun hlen => ?_⟩
      rcases Nat.eq_or_lt_of_le hlen with hlen | hlen
      · rw [hsame hlen.symm] at h
        exact List.lt_irrefl _ h
      · exact List.lt_asymm h (hlonger hlen)

end

/-- A strict order that leaves only those elements undecided that are the same to `eqv`. -/
structure StrictTotalUpTo {α : Type*} (eqv lt : α → α → Prop) : Prop where
  irrefl : ∀ a b, eqv a b → ¬ lt a b
  trans : ∀ a b c, lt a b → lt b c → lt a c
  total : ∀ a b, lt a b ∨ eqv a b ∨ lt b a

section

variable {α β : Type*} [LT β] [Std.Irrefl fun a b : β => a < b]
  [Trans (fun a b : β => a < b) (fun a b : β => a < b) (fun a b : β => a < b)]
  [Std.Trichotomous fun a b : β => a < b]

/-- The order of the images. -/
theorem StrictTotalUpTo.image {f : α → β} {lt : α → α → Prop} (h : ∀ a b, lt a b ↔ f a < f b) :
    StrictTotalUpTo (fun a b => f a = f b) lt where
  irrefl a b heq hlt := Std.Irrefl.irrefl (r := fun a b : β => a < b) (f b)
    (heq ▸ (h a b).mp hlt)
  trans a b c hab hbc := (h a c).mpr (Trans.trans ((h a b).mp hab) ((h b c).mp hbc))
  total a b := by
    rcases Classical.em (f a < f b) with hlt | hlt
    · exact .inl ((h a b).mpr hlt)
    · rcases Classical.em (f b < f a) with hgt | hgt
      · exact .inr (.inr ((h b a).mpr hgt))
      · exact .inr (.inl (Std.Trichotomous.trichotomous _ _ hlt hgt))

end

end Luwu.Lib
