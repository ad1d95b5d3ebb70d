import Mathlib.Data.List.Nodup

/-!
# Ordered sets

`std::set` under a comparator: the elements in order, an iterator is an index and `none` is
`end ()`.  The searches compare as the tree search does; their specifications hold for a list that
the comparator sorts strictly, which insertion and removal preserve.
-/

namespace Luwu.Lib.OrderedSet

variable {α : Type*}

/-- The first element that `k` is less than. -/
def upperBound (lt : α → α → Bool) : List α → α → Nat
  | [], _ => 0
  | x :: xs, k => if lt k x then 0 else upperBound lt xs k + 1

def find (lt : α → α → Bool) : List α → α → Option Nat
  | [], _ => none
  | x :: xs, k => if lt x k then (find lt xs k).map (· + 1) else if lt k x then none else some 0

/-- `insert (k)`: nothing happens when an equivalent element is there. -/
def insert (lt : α → α → Bool) : List α → α → List α
  | [], k => [k]
  | x :: xs, k => if lt x k then x :: insert lt xs k else if lt k x then k :: x :: xs else x :: xs

/-- `erase (k)`, the removal by key. -/
def eraseKey (lt : α → α → Bool) (xs : List α) (k : α) : List α :=
  match find lt xs k with
  | none => xs
  | some i => xs.eraseIdx i

/-- Strictly increasing, hence without duplicates. -/
def Sorted (lt : α → α → Bool) (xs : List α) : Prop := xs.Pairwise fun a b => lt a b = true

/-- A strict order that is total on the elements with `p`. -/
structure StrictOrder (lt : α → α → Bool) (p : α → Prop) : Prop where
  irrefl : ∀ a, lt a a = false
  trans : ∀ {a b c}, lt a b = true → lt b c = true → lt a c = true
  total : ∀ {a b}, p a → p b → lt a b = false → lt b a = false → a = b

variable {lt : α → α → Bool} {p : α → Prop} {xs : List α} {k : α}

theorem Sorted.nodup (h : StrictOrder lt p) (hs : Sorted lt xs) : xs.Nodup := by
  refine List.Pairwise.imp ?_ hs
  rintro a b hab rfl
  rw [h.irrefl] at hab
  cases hab

theorem Sorted.sublist {ys : List α} (hs : Sorted lt xs) (hsub : ys.Sublist xs) : Sorted lt ys :=
  List.Pairwise.sublist hsub hs

theorem Sorted.congr {lt' : α → α → Bool} (hs : Sorted lt xs)
    (h : ∀ a ∈ xs, ∀ b ∈ xs, lt' a b = lt a b) : Sorted lt' xs :=
  List.Pairwise.imp_of_mem (fun ha hb hab => by rw [h _ ha _ hb]; exact hab) hs

/-- An iterator that `find` returns points to an element that is equivalent to the one looked
for. -/
theorem find_equiv {i : Nat} (hf : find lt xs k = some i) :
    ∃ x, xs[i]? = some x ∧ lt x k = false ∧ lt k x = false := by
  induction xs generalizing i with
  | nil => cases hf
  | cons x xs ih =>
    rw [find] at hf
    split at hf
    · rw [Option.map_eq_some_iff] at hf
      obtain ⟨j, hj, rfl⟩ := hf
      rw [List.getElem?_cons_succ]
      exact ih hj
    · split at hf
      · cases hf
      · rename_i hxk hkx
        cases hf
        exact ⟨x, rfl, by simpa using hxk, by simpa using hkx⟩

/-- `find` finds an element that compares as the one looked for. -/
theorem find_of_equiv {x : α} (hs : Sorted lt xs) (hx : x ∈ xs) (hirrefl : lt x x = false)
    (hbelow : ∀ y, lt y k = lt y x) (habove : lt k x = lt x x) :
    ∃ i, find lt xs k = some i ∧ xs[i]? = some x := by
  induction xs with
  | nil => exact absurd hx List.not_mem_nil
  | cons y xs ih =>
    obtain ⟨hy, hrest⟩ := List.pairwise_cons.mp hs
    rw [find, hbelow]
    rcases List.mem_cons.mp hx with rfl | hx'
    · rw [hirrefl, habove, hirrefl]
      exact ⟨0, rfl, rfl⟩
    · obtain ⟨i, hi, hget⟩ := ih hrest hx'
      rw [if_pos (hy x hx'), hi]
      exact ⟨i + 1, rfl, hget⟩

theorem find_some (h : StrictOrder lt p) (hp : ∀ a ∈ xs, p a) (hk : p k) {i : Nat}
    (hf : find lt xs k = some i) : xs[i]? = some k := by
  obtain ⟨x, hx, hxk, hkx⟩ := find_equiv hf
  rw [hx, h.total (hp x (List.mem_of_getElem? hx)) hk hxk hkx]

theorem find_of_mem (h : StrictOrder lt p) (hs : Sorted lt xs) (hk : k ∈ xs) :
    ∃ i, find lt xs k = some i := by
  obtain ⟨i, hi, -⟩ := find_of_equiv hs hk (h.irrefl k) (fun _ => rfl) rfl
  exact ⟨i, hi⟩

theorem find_eq_none (h : StrictOrder lt p) (hs : Sorted lt xs) (hp : ∀ a ∈ xs, p a) (hk : p k) :
    find lt xs k = none ↔ k ∉ xs := by
  constructor
  · intro hf hmem
    obtain ⟨i, hi⟩ := find_of_mem h hs hmem
    rw [hf] at hi
    cases hi
  · intro hnot
    cases hf : find lt xs k with
    | none => rfl
    | some i => exact absurd (List.mem_of_getElem? (find_some h hp hk hf)) hnot

/-- What precedes `upper_bound (k)` is what `k` is not less than. -/
theorem take_upperBound (hs : Sorted lt xs)
    (htrans : ∀ {a b}, lt k a = true → lt a b = true → lt k b = true) :
    xs.take (upperBound lt xs k) = xs.filter fun x => !lt k x := by
  induction xs with
  | nil => rfl
  | cons x xs ih =>
    obtain ⟨hx, hrest⟩ := List.pairwise_cons.mp hs
    rw [upperBound]
    split
    · rename_i hkx
      have hnone : ∀ y ∈ x :: xs, ¬ (!lt k y) = true := by
        intro y hy
        rcases List.mem_cons.mp hy with rfl | hy
        · simp [hkx]
        · simp [htrans hkx (hx y hy)]
      rw [List.filter_eq_nil_iff.mpr hnone]
      rfl
    · rename_i hkx
      rw [List.take_succ_cons, ih hrest, List.filter_cons_of_pos (by simpa using hkx)]

variable [DecidableEq α]

theorem eraseIdx_find (h : StrictOrder lt p) (hs : Sorted lt xs) (hp : ∀ a ∈ xs, p a) (hk : p k)
    {i : Nat} (hf : find lt xs k = some i) : xs.eraseIdx i = xs.erase k := by
  obtain ⟨hi, hik⟩ := List.getElem?_eq_some_iff.mp (find_some h hp hk hf)
  rw [← hik, (hs.nodup h).erase_getElem]

theorem eraseKey_eq (h : StrictOrder lt p) (hs : Sorted lt xs) (hp : ∀ a ∈ xs, p a) (hk : p k) :
    eraseKey lt xs k = xs.erase k := by
  unfold eraseKey
  split
  · rename_i hf
    rw [List.erase_of_not_mem ((find_eq_none h hs hp hk).mp hf)]
  · rename_i i hf
    exact eraseIdx_find h hs hp hk hf

omit [DecidableEq α] in
theorem mem_insert (h : StrictOrder lt p) (hp : ∀ a ∈ xs, p a) (hk : p k) {a : α} :
    a ∈ insert lt xs k ↔ a = k ∨ a ∈ xs := by
  induction xs with
  | nil => simp [insert]
  | cons x xs ih =>
    have ih := ih fun a ha => hp a (List.mem_cons_of_mem _ ha)
    rw [insert]
    split
    · rw [List.mem_cons, ih, List.mem_cons]
      tauto
    · split
      · rw [List.mem_cons]
      · rename_i hxk hkx
        have hx : x = k :=
          h.total (hp x List.mem_cons_self) hk (by simpa using hxk) (by simpa using hkx)
        rw [List.mem_cons, hx]
        tauto

omit [DecidableEq α] in
theorem of_mem_insert {a : α} (ha : a ∈ insert lt xs k) : a = k ∨ a ∈ xs := by
  induction xs with
  | nil => exact .inl (List.mem_singleton.mp ha)
  | cons x xs ih =>
    rw [insert] at ha
    split at ha
    · rcases List.mem_cons.mp ha with rfl | ha
      · exact .inr List.mem_cons_self
      · exact (ih ha).imp_right (List.mem_cons_of_mem x)
    · split at ha
      · exact List.mem_cons.mp ha
      · exact .inr ha

omit [DecidableEq α] in
/-- Insertion keeps the order, also of elements that are equivalent without being equal. -/
theorem insert_sorted_of_trans (htrans : ∀ {a b c}, lt a b = true → lt b c = true → lt a c = true)
    (hs : Sorted lt xs) : Sorted lt (insert lt xs k) := by
  induction xs with
  | nil => exact List.pairwise_singleton _ _
  | cons x xs ih =>
    obtain ⟨hx, hrest⟩ := List.pairwise_cons.mp hs
    rw [insert]
    split
    · rename_i hxk
      refine List.pairwise_cons.mpr ⟨?_, ih hrest⟩
      intro a ha
      rcases of_mem_insert ha with rfl | ha'
      · exact hxk
      · exact hx a ha'
    · split
      · rename_i hkx
        refine List.pairwise_cons.mpr ⟨?_, hs⟩
        intro a ha
        rcases List.mem_cons.mp ha with rfl | ha'
        · exact hkx
        · exact htrans hkx (hx a ha')
      · exact hs

end Luwu.Lib.OrderedSet
