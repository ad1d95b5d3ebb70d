import Mathlib.Data.List.Basic
import Mathlib.Order.Lattice

/-!
# Ordered maps

`std::map` whose comparator orders the keys by a linear order on `key k`: the entries in order.
Keys with the same `key` are the same key to the map, which keeps the one it was given first.
-/

namespace Luwu.Lib

/-- The entries of a map, strictly increasing in their keys. -/
structure OrderedMap {α κ : Type} [LinearOrder κ] (key : α → κ) (β : Type) where
  entries : List (α × β)
  sorted : entries.Pairwise fun a b => key a.1 < key b.1

namespace OrderedMap

variable {α κ β : Type} [LinearOrder κ] {key : α → κ}

instance [DecidableEq α] [DecidableEq β] : DecidableEq (OrderedMap key β) := fun m m' =>
  decidable_of_iff (m.entries = m'.entries) (by cases m; cases m'; simp)

def empty : OrderedMap key β := ⟨[], .nil⟩

def assignList (key : α → κ) : List (α × β) → α → β → List (α × β)
  | [], k, v => [(k, v)]
  | e :: es, k, v =>
    if key e.1 < key k then e :: assignList key es k v
    else if key e.1 = key k then (e.1, v) :: es
    else (k, v) :: e :: es

theorem key_mem_assignList {es : List (α × β)} {k : α} {v : β} {a : α × β}
    (h : a ∈ assignList key es k v) : key a.1 = key k ∨ ∃ e ∈ es, key a.1 = key e.1 := by
  induction es with
  | nil =>
    left
    rw [List.mem_singleton.mp h]
  | cons e es ih =>
    rw [assignList] at h
    split at h
    · rcases List.mem_cons.mp h with rfl | h
      · exact .inr ⟨a, List.mem_cons_self, rfl⟩
      · rcases ih h with hk | ⟨e', he', hk⟩
        · exact .inl hk
        · exact .inr ⟨e', List.mem_cons_of_mem e he', hk⟩
    · split at h
      · next heq =>
        rcases List.mem_cons.mp h with rfl | h
        · exact .inl heq
        · exact .inr ⟨a, List.mem_cons_of_mem e h, rfl⟩
      · rcases List.mem_cons.mp h with rfl | h
        · exact .inl rfl
        · exact .inr ⟨a, h, rfl⟩

theorem assignList_sorted {es : List (α × β)} (hs : es.Pairwise fun a b => key a.1 < key b.1)
    (k : α) (v : β) : (assignList key es k v).Pairwise fun a b => key a.1 < key b.1 := by
  induction es with
  | nil => exact List.pairwise_singleton _ _
  | cons e es ih =>
    obtain ⟨hhead, htail⟩ := List.pairwise_cons.mp hs
    rw [assignList]
    split
    · next hlt =>
      refine List.pairwise_cons.mpr ⟨?_, ih htail⟩
      intro a ha
      rcases key_mem_assignList ha with hk | ⟨e', he', hk⟩
      · rw [hk]
        exact hlt
      · rw [hk]
        exact hhead e' he'
    · next hnlt =>
      split
      · exact List.pairwise_cons.mpr ⟨hhead, htail⟩
      · next hne =>
        have hlt : key k < key e.1 := lt_of_le_of_ne (not_lt.mp hnlt) (Ne.symm hne)
        refine List.pairwise_cons.mpr ⟨?_, hs⟩
        intro a ha
        rcases List.mem_cons.mp ha with rfl | ha
        · exact hlt
        · exact hlt.trans (hhead a ha)

/-- `m[k] = v`. -/
def assign (m : OrderedMap key β) (k : α) (v : β) : OrderedMap key β :=
  ⟨assignList key m.entries k v, assignList_sorted m.sorted k v⟩

/-- `m.erase (k)`. -/
def erase (m : OrderedMap key β) (k : α) : OrderedMap key β :=
  ⟨m.entries.filter fun e => decide (key e.1 ≠ key k), m.sorted.filter _⟩

/-- The value that `find (k)` points to; `none` is `end ()`. -/
def find (m : OrderedMap key β) (k : α) : Option β :=
  (m.entries.find? fun e => key e.1 = key k).map Prod.snd

@[simp] theorem find_empty (k : α) : (empty : OrderedMap key β).find k = none := rfl

theorem find?_assignList {es : List (α × β)} (hs : es.Pairwise fun a b => key a.1 < key b.1)
    (k k' : α) (v : β) :
    ((assignList key es k v).find? fun e => key e.1 = key k').map Prod.snd =
      if key k' = key k then some v else (es.find? fun e => key e.1 = key k').map Prod.snd := by
  induction es with
  | nil =>
    by_cases hk : key k' = key k
    · simp [assignList, hk]
    · simp [assignList, hk, Ne.symm hk]
  | cons e es ih =>
    obtain ⟨hhead, htail⟩ := List.pairwise_cons.mp hs
    rw [assignList]
    split
    · next hlt =>
      -- the entry is further on
      by_cases he : key e.1 = key k'
      · rw [List.find?_cons_of_pos (by simpa using he), List.find?_cons_of_pos (by simpa using he),
          if_neg (by rw [← he]; exact hlt.ne)]
      · rw [List.find?_cons_of_neg (by simpa using he), List.find?_cons_of_neg (by simpa using he)]
        exact ih htail
    · split
      · next heq =>
        by_cases he : key k' = key k
        · rw [List.find?_cons_of_pos (by simpa [he] using heq), if_pos he]
          rfl
        · have hne : ¬ key e.1 = key k' := fun h => he (h.symm.trans heq)
          rw [List.find?_cons_of_neg (by simpa using hne), if_neg he,
            List.find?_cons_of_neg (by simpa using hne)]
      · by_cases he : key k' = key k
        · rw [List.find?_cons_of_pos (by simpa using he.symm), if_pos he]
          rfl
        · rw [List.find?_cons_of_neg (by simpa using Ne.symm he), if_neg he]

/-- **What `find` gives after an assignment.** -/
theorem find_assign (m : OrderedMap key β) (k k' : α) (v : β) :
    (m.assign k v).find k' = if key k' = key k then some v else m.find k' :=
  find?_assignList m.sorted k k' v

theorem find_erase (m : OrderedMap key β) (k k' : α) :
    (m.erase k).find k' = if key k' = key k then none else m.find k' := by
  unfold find erase
  rw [List.find?_filter]
  split
  · next hk =>
    rw [List.find?_eq_none.mpr]
    · rfl
    · intro e _
      simp [hk]
  · next hk =>
    congr 2
    funext e
    by_cases he : key e.1 = key k'
    · simp [he, hk]
    · simp [he]

/-- What `find` gives after assignments one by one is the value of one of them. -/
theorem exists_of_find_foldl_assign {es : List (α × β)} {m : OrderedMap key β} {k : α} {v : β}
    (h : (es.foldl (fun m e => m.assign e.1 e.2) m).find k = some v) :
    (∃ e ∈ es, key k = key e.1 ∧ e.2 = v) ∨ m.find k = some v := by
  induction es generalizing m with
  | nil => exact .inr h
  | cons e es ih =>
    rcases ih h with ⟨e', he', hk⟩ | hfind
    · exact .inl ⟨e', List.mem_cons_of_mem e he', hk⟩
    · rw [find_assign] at hfind
      split at hfind
      · next hk => exact .inl ⟨e, List.mem_cons_self, hk, Option.some.inj hfind⟩
      · exact .inr hfind

/-- `m.insert (make_pair (k, v))`. -/
def insert (m : OrderedMap key β) (k : α) (v : β) : OrderedMap key β :=
  if (m.find k).isSome then m else m.assign k v

theorem find_congr (m : OrderedMap key β) {k k' : α} (h : key k' = key k) :
    m.find k' = m.find k := by
  unfold find
  rw [h]

/-- The value that was there first stays. -/
theorem find_insert (m : OrderedMap key β) (k k' : α) (v : β) :
    (m.insert k v).find k' = if key k' = key k then some ((m.find k).getD v) else m.find k' := by
  unfold insert
  cases hfind : m.find k with
  | none => exact find_assign m k k' v
  | some w =>
    rw [if_pos (Option.isSome_some)]
    split
    · next hk => rw [m.find_congr hk, hfind, Option.getD_some]
    · rfl

/-- The map that some insertions lead to. -/
def insertAll (m : OrderedMap key β) (es : List (α × β)) : OrderedMap key β :=
  es.foldl (fun m e => m.insert e.1 e.2) m

/-- Of the pairs with a key the first one counts. -/
theorem find_insertAll (m : OrderedMap key β) (es : List (α × β)) (k : α) :
    (m.insertAll es).find k =
      (m.find k).or ((es.find? fun e => key e.1 = key k).map Prod.snd) := by
  induction es generalizing m with
  | nil => exact (Option.or_none).symm
  | cons e es ih =>
    refine (ih (m.insert e.1 e.2)).trans ?_
    rw [find_insert]
    by_cases hk : key k = key e.1
    · rw [if_pos hk, List.find?_cons_of_pos (by simpa using hk.symm), m.find_congr hk]
      cases m.find e.1 <;> rfl
    · rw [if_neg hk, List.find?_cons_of_neg (by simpa using Ne.symm hk)]

/-- An assignment enters no other key than its own. -/
theorem fst_mem_assignList {es : List (α × β)} {k : α} {v : β} {a : α × β}
    (h : a ∈ assignList key es k v) : a.1 = k ∨ a.1 ∈ es.map Prod.fst := by
  induction es with
  | nil => exact .inl (congrArg Prod.fst (List.mem_singleton.mp h))
  | cons e es ih =>
    have hmem {a : α × β} (ha : a ∈ e :: es) : a.1 ∈ (e :: es).map Prod.fst :=
      List.mem_map_of_mem ha
    rw [assignList] at h
    split at h
    · rcases List.mem_cons.mp h with rfl | h
      · exact .inr (hmem List.mem_cons_self)
      · exact (ih h).imp_right (List.mem_cons_of_mem _)
    · split at h
      · rcases List.mem_cons.mp h with rfl | h
        · exact .inr List.mem_cons_self
        · exact .inr (hmem (List.mem_cons_of_mem e h))
      · rcases List.mem_cons.mp h with rfl | h
        · exact .inl rfl
        · exact .inr (hmem h)

theorem fst_mem_insertAll {m : OrderedMap key β} {es : List (α × β)} {a : α × β}
    (h : a ∈ (m.insertAll es).entries) :
    a.1 ∈ es.map Prod.fst ∨ a.1 ∈ m.entries.map Prod.fst := by
  induction es generalizing m with
  | nil => exact .inr (List.mem_map_of_mem h)
  | cons e es ih =>
    rcases ih h with hes | hm
    · exact .inl (List.mem_cons_of_mem _ hes)
    · dsimp only [insert] at hm
      split at hm
      · exact .inr hm
      · obtain ⟨b, hb, hfst⟩ := List.mem_map.mp hm
        rw [← hfst]
        rcases fst_mem_assignList hb with hk | hold
        · exact .inl (hk ▸ List.mem_cons_self)
        · exact .inr hold

/-- An assignment to a new key adds an entry and leaves the others. -/
theorem assignList_perm {es : List (α × β)} {k : α} (hk : ∀ e ∈ es, key e.1 ≠ key k) (v : β) :
    (assignList key es k v).Perm ((k, v) :: es) := by
  induction es with
  | nil => exact .refl _
  | cons e es ih =>
    rw [assignList]
    split
    · have hrest := ih fun e' he' => hk e' (List.mem_cons_of_mem e he')
      exact (hrest.cons e).trans (.swap (k, v) e es)
    · rw [if_neg (hk e List.mem_cons_self)]

/-- The map that assignments to distinct new keys lead to. -/
theorem foldl_assign_perm {es : List (α × β)} (hes : es.Pairwise fun a b => key a.1 ≠ key b.1)
    {m : OrderedMap key β} (hm : ∀ e ∈ es, ∀ e' ∈ m.entries, key e'.1 ≠ key e.1) :
    (es.foldl (fun m e => m.assign e.1 e.2) m).entries.Perm (es ++ m.entries) := by
  induction es generalizing m with
  | nil => exact .refl _
  | cons e es ih =>
    obtain ⟨hhead, htail⟩ := List.pairwise_cons.mp hes
    have hperm : (m.assign e.1 e.2).entries.Perm (e :: m.entries) :=
      assignList_perm (hm e List.mem_cons_self) e.2
    have hrest := ih (m := m.assign e.1 e.2) htail (by
      intro e₁ he₁ e₂ he₂
      rcases List.mem_cons.mp (hperm.subset he₂) with rfl | he₂
      · exact hhead e₁ he₁
      · exact hm e₁ (List.mem_cons_of_mem e he₁) e₂ he₂)
    exact hrest.trans ((hperm.append_left es).trans List.perm_middle)

/-- Entries in order are determined by which they are. -/
theorem eq_of_perm {es es' : List (α × β)} (h : es.Perm es')
    (hs : es.Pairwise fun a b => key a.1 < key b.1)
    (hs' : es'.Pairwise fun a b => key a.1 < key b.1) : es = es' :=
  h.eq_of_pairwise (fun _ _ _ _ hlt hgt => absurd (hlt.trans hgt) (lt_irrefl _)) hs hs'

end OrderedMap

end Luwu.Lib
