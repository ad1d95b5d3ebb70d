import Luwu.Lib.Text

/-!
# Replacing in a string

The overloads of `replace` search the string that they rewrite, from behind the text that they put
in last.
-/

namespace Luwu.HashUtil

open Lib.StdString (substr)

/-! ## Searching for a string -/

/-- Where `sub` first stands in a string. -/
def search (sub : Bytes) : Bytes → Option Nat
  | [] => if sub = [] then some 0 else none
  | c :: str => if sub.isPrefixOf (c :: str) then some 0 else (search sub str).map (· + 1)

/-- `str.find (sub, pos)`. -/
def findString (str sub : Bytes) (pos : Nat) : Option Nat :=
  if pos ≤ str.length then (search sub (str.drop pos)).map (pos + ·) else none

/-! ## The overloads -/

/-- `while (index != std::string::npos) { str = put (str, index); index = find (str, index +
width); }`, for at most so many turns. -/
def replaceLoop (find : Bytes → Nat → Option Nat) (put : Bytes → Nat → Bytes) (width : Nat) :
    Nat → Bytes → Option Nat → Option Bytes
  | _, str, none => some str
  | 0, _, some _ => none
  | turns + 1, str, some index =>
    replaceLoop find put width turns (put str index) (find (put str index) (index + width))

/-- `replace (str, char, char)`. -/
def replaceCharChar (turns : Nat) (str : Bytes) (find replaceWith : UInt8) : Option Bytes :=
  replaceLoop (Lib.StdString.find · find) (fun str index => str.set index replaceWith) 1 turns str
    (Lib.StdString.find str find 0)

/-- `replace (str, char, string)`.  An index that was found is one of the string, so that `substr`
does not throw. -/
def replaceCharString (turns : Nat) (str : Bytes) (find : UInt8) (replaceWith : Bytes) :
    Option Bytes :=
  replaceLoop (Lib.StdString.find · find)
    (fun str index => substr str 0 index ++ replaceWith ++ str.drop (index + 1))
    replaceWith.length turns str (Lib.StdString.find str find 0)

/-- `replace (str, string, string)`. -/
def replace (turns : Nat) (str find replaceWith : Bytes) : Option Bytes :=
  replaceLoop (findString · find)
    (fun str index => substr str 0 index ++ replaceWith ++ str.drop (index + find.length))
    replaceWith.length turns str (findString str find 0)

/-! ## What is to be replaced -/

/-- `sub` stands nowhere in `s` in front of the offset `n`. -/
def NotBefore (sub s : Bytes) (n : Nat) : Prop := ∀ i < n, ¬ sub <+: s.drop i

/-- Every leftmost occurrence of `find`, one behind the other, is replaced. -/
inductive Replaced (find replaceWith : Bytes) : Bytes → Bytes → Prop where
  | rest {s : Bytes} (h : NotBefore find s (s.length + 1)) : Replaced find replaceWith s s
  | next {pre post r : Bytes} (h : NotBefore find (pre ++ (find ++ post)) pre.length)
    (hr : Replaced find replaceWith post r) :
    Replaced find replaceWith (pre ++ (find ++ post)) (pre ++ (replaceWith ++ r))

theorem NotBefore.cons {sub s : Bytes} {c : UInt8} {n : Nat} (hc : ¬ sub <+: c :: s)
    (h : NotBefore sub s n) : NotBefore sub (c :: s) (n + 1) := by
  intro i hi
  cases i with
  | zero => exact hc
  | succ i => exact h i (Nat.lt_of_succ_lt_succ hi)

/-- `search` gives the leftmost occurrence. -/
theorem search_some {sub s : Bytes} {n : Nat} (h : search sub s = some n) :
    ∃ pre post, s = pre ++ (sub ++ post) ∧ pre.length = n ∧ NotBefore sub s n := by
  induction s generalizing n with
  | nil =>
    rw [search] at h
    split_ifs at h with hsub
    cases h
    exact ⟨[], [], by rw [hsub]; rfl, rfl, fun i hi => absurd hi (Nat.not_lt_zero i)⟩
  | cons c s ih =>
    rw [search] at h
    split_ifs at h with hpre
    · cases h
      obtain ⟨post, hpost⟩ := List.isPrefixOf_iff_prefix.mp hpre
      exact ⟨[], post, hpost.symm, rfl, fun i hi => absurd hi (Nat.not_lt_zero i)⟩
    · obtain ⟨m, hm, rfl⟩ := Option.map_eq_some_iff.mp h
      obtain ⟨pre, post, hs, hlen, hbefore⟩ := ih hm
      refine ⟨c :: pre, post, congrArg _ hs, congrArg _ hlen, hbefore.cons ?_⟩
      exact fun hprefix => hpre (List.isPrefixOf_iff_prefix.mpr hprefix)

theorem search_none {sub s : Bytes} (h : search sub s = none) :
    NotBefore sub s (s.length + 1) := by
  induction s with
  | nil =>
    rw [search] at h
    split_ifs at h with hsub
    intro i _ hprefix
    rw [List.drop_nil, List.prefix_nil] at hprefix
    exact hsub hprefix
  | cons c s ih =>
    rw [search] at h
    split_ifs at h with hpre
    refine (ih (Option.map_eq_none_iff.mp h)).cons ?_
    exact fun hprefix => hpre (List.isPrefixOf_iff_prefix.mpr hprefix)

theorem search_nil (s : Bytes) : search [] s = some 0 := by
  cases s <;> rfl

theorem search_singleton (c : UInt8) (s : Bytes) : search [c] s = s.findIdx? (· = c) := by
  induction s with
  | nil => rfl
  | cons d s ih =>
    rw [search, List.findIdx?_cons, ih]
    by_cases hd : d = c
    · subst hd
      simp
    · simp [hd, Ne.symm hd]

section

variable {find replaceWith s r r' : Bytes}

theorem prefix_drop (pre post : Bytes) : find <+: (pre ++ (find ++ post)).drop pre.length := by
  rw [List.drop_left]
  exact List.prefix_append find post

/-- An occurrence is in front of `n`, or `n` is in front of it. -/
theorem NotBefore.le {pre post : Bytes} {n : Nat} (h : NotBefore find (pre ++ (find ++ post)) n) :
    n ≤ pre.length :=
  Nat.not_lt.mp fun hlt => h _ hlt (prefix_drop pre post)

/-- There is one way to replace. -/
theorem Replaced.unique (h : Replaced find replaceWith s r) (h' : Replaced find replaceWith s r') :
    r = r' := by
  induction h generalizing r' with
  | rest hnone =>
    cases h' with
    | rest => rfl
    | next hfirst =>
      -- an occurrence where there is none
      have hle := hnone.le
      simp only [List.length_append] at hle
      omega
  | @next pre post r hfirst hr ih =>
    generalize hs : pre ++ (find ++ post) = s at h' hfirst
    cases h' with
    | rest hnone =>
      subst hs
      have hle := hnone.le
      simp only [List.length_append] at hle
      omega
    | @next pre' post' r'' hfirst' hr' =>
      -- both begin with the leftmost occurrence
      have hle : pre.length ≤ pre'.length := hfirst.le
      rw [← hs] at hfirst'
      obtain ⟨rfl, htail⟩ := List.append_inj hs (Nat.le_antisymm hle hfirst'.le)
      obtain rfl := List.append_cancel_left htail
      rw [ih hr']

end

/-! ## The loops -/

section

variable {sub new : Bytes} {find : Bytes → Nat → Option Nat} {put : Bytes → Nat → Bytes}

/-- The loop searches for `sub` and puts `new` in its place. -/
structure LoopFor (sub new : Bytes) (find : Bytes → Nat → Option Nat) (put : Bytes → Nat → Bytes) :
    Prop where
  find_append : ∀ out s : Bytes,
    find (out ++ s) out.length = (search sub s).map (out.length + ·)
  put_append : ∀ out post : Bytes,
    put (out ++ (sub ++ post)) out.length = out ++ (new ++ post)

/-- The loop replaces what is behind the text that it has been through. -/
theorem replaceLoop_append (h : LoopFor sub new find put) (hsub : sub ≠ []) (out s : Bytes) :
    ∃ turns r, replaceLoop find put new.length turns (out ++ s) (find (out ++ s) out.length) =
      some (out ++ r) ∧ Replaced sub new s r := by
  obtain ⟨n, hn⟩ : ∃ n, n = s.length := ⟨_, rfl⟩
  induction n using Nat.strongRecOn generalizing out s with
  | _ n ih =>
    rw [h.find_append]
    cases hsearch : search sub s with
    | none => exact ⟨0, s, rfl, .rest (search_none hsearch)⟩
    | some k =>
      obtain ⟨pre, post, rfl, rfl, hfirst⟩ := search_some hsearch
      have hpos := List.length_pos_iff.mpr hsub
      simp only [List.length_append] at hn
      -- the search goes on behind what was put in
      obtain ⟨turns, r, hloop, hr⟩ := ih post.length (by omega) (out ++ pre ++ new) post rfl
      refine ⟨turns + 1, pre ++ (new ++ r), ?_, .next hfirst hr⟩
      have hput := h.put_append (out ++ pre) post
      simp only [List.length_append, List.append_assoc] at hput hloop ⊢
      rw [Option.map_some, replaceLoop, hput, Nat.add_assoc]
      exact hloop

/-- More turns change nothing. -/
theorem replaceLoop_mono {width turns turns' : Nat} {str r : Bytes} {index : Option Nat}
    (hle : turns ≤ turns') (h : replaceLoop find put width turns str index = some r) :
    replaceLoop find put width turns' str index = some r := by
  induction turns generalizing turns' str index with
  | zero =>
    cases index with
    | none =>
      cases turns' <;> exact h
    | some index => cases h
  | succ turns ih =>
    cases index with
    | none => cases turns' <;> exact h
    | some index =>
      obtain ⟨turns', rfl⟩ : ∃ k, turns' = k + 1 := ⟨turns' - 1, by omega⟩
      rw [replaceLoop] at h ⊢
      exact ih (by omega) h

end

section

variable {str find replaceWith : Bytes} {c d : UInt8}

theorem find_singleton (out s : Bytes) (c : UInt8) :
    Lib.StdString.find (out ++ s) c out.length = (search [c] s).map (out.length + ·) := by
  rw [Lib.StdString.find, List.drop_left, search_singleton]

theorem substr_drop (out post sub new : Bytes) :
    substr (out ++ (sub ++ post)) 0 out.length ++ new ++
      (out ++ (sub ++ post)).drop (out.length + sub.length) = out ++ (new ++ post) := by
  rw [substr, List.drop_zero, List.take_left, ← List.drop_drop, List.drop_left, List.drop_left,
    List.append_assoc]

theorem loopFor_charChar :
    LoopFor [c] [d] (Lib.StdString.find · c) fun str index => str.set index d where
  find_append out s := find_singleton out s c
  put_append out post := by simp

theorem loopFor_charString (c : UInt8) (replaceWith : Bytes) :
    LoopFor [c] replaceWith (Lib.StdString.find · c)
      fun str index => substr str 0 index ++ replaceWith ++ str.drop (index + 1) where
  find_append out s := find_singleton out s c
  put_append out post := substr_drop out post [c] replaceWith

theorem loopFor_string (find replaceWith : Bytes) : LoopFor find replaceWith (findString · find)
    fun str index => substr str 0 index ++ replaceWith ++ str.drop (index + find.length) where
  find_append out s := by
    rw [findString, if_pos (by rw [List.length_append]; omega), List.drop_left]
  put_append out post := substr_drop out post find replaceWith

/-- A call returns `r`, after so many turns. -/
def Returns (call : Nat → Option Bytes) (r : Bytes) : Prop :=
  ∃ turns, ∀ turns' ≥ turns, call turns' = some r

theorem returns_charChar (str : Bytes) (c d : UInt8) :
    ∃ r, Returns (replaceCharChar · str c d) r ∧ Replaced [c] [d] str r := by
  obtain ⟨turns, r, hloop, hr⟩ :=
    replaceLoop_append (loopFor_charChar (c := c) (d := d)) (List.cons_ne_nil c []) [] str
  exact ⟨r, ⟨turns, fun _ hle => replaceLoop_mono hle hloop⟩, hr⟩

theorem returns_charString (str replaceWith : Bytes) (c : UInt8) :
    ∃ r, Returns (replaceCharString · str c replaceWith) r ∧ Replaced [c] replaceWith str r := by
  obtain ⟨turns, r, hloop, hr⟩ := replaceLoop_append
    (loopFor_charString c replaceWith) (List.cons_ne_nil c []) [] str
  exact ⟨r, ⟨turns, fun _ hle => replaceLoop_mono hle hloop⟩, hr⟩

theorem returns_string (str replaceWith : Bytes) (hfind : find ≠ []) :
    ∃ r, Returns (replace · str find replaceWith) r ∧ Replaced find replaceWith str r := by
  obtain ⟨turns, r, hloop, hr⟩ :=
    replaceLoop_append (loopFor_string find replaceWith) hfind [] str
  exact ⟨r, ⟨turns, fun _ hle => replaceLoop_mono hle hloop⟩, hr⟩

/-- The empty string is found wherever the search starts. -/
theorem replaceLoop_empty (replaceWith : Bytes) (turns : Nat) {str : Bytes} {index : Nat}
    (hindex : index ≤ str.length) :
    replaceLoop (findString · [])
      (fun str index => substr str 0 index ++ replaceWith ++ str.drop (index + 0))
      replaceWith.length turns str (some index) = none := by
  induction turns generalizing str index with
  | zero => rfl
  | succ turns ih =>
    have hroom : index + replaceWith.length ≤
        (substr str 0 index ++ replaceWith ++ str.drop (index + 0)).length := by
      simp only [substr, List.length_append, List.length_take, List.drop_zero]
      omega
    rw [replaceLoop, findString, if_pos hroom, search_nil]
    exact ih hroom

theorem not_returns_empty (str replaceWith r : Bytes) :
    ¬ Returns (replace · str [] replaceWith) r := by
  rintro ⟨turns, h⟩
  have hnone : replace turns str [] replaceWith = none := by
    rw [replace, findString, if_pos (Nat.zero_le _), search_nil]
    exact replaceLoop_empty replaceWith turns (Nat.zero_le _)
  exact absurd (hnone.symm.trans (h turns (Nat.le_refl turns))) (Option.some_ne_none r).symm

end

/-- The call returns, with every occurrence replaced, and so do the overloads for a character. -/
structure Replaces (str find replaceWith : Bytes) : Prop where
  returns : ∃ r, Returns (replace · str find replaceWith) r ∧
    (find ≠ [] → Replaced find replaceWith str r)
  charString : ∀ c, find = [c] → ∃ r, Returns (replaceCharString · str c replaceWith) r ∧
    Returns (replace · str find replaceWith) r
  charChar : ∀ c d, find = [c] → replaceWith = [d] → ∃ r, Returns (replaceCharChar · str c d) r ∧
    Returns (replace · str find replaceWith) r

/-- **Every call returns but those that search for the empty string.** -/
theorem replaces_iff (str find replaceWith : Bytes) :
    Replaces str find replaceWith ↔ find ≠ [] := by
  constructor
  · rintro ⟨⟨r, hr, -⟩, -, -⟩ rfl
    exact not_returns_empty str replaceWith r hr
  · intro hfind
    obtain ⟨r, hr, hreplaced⟩ := returns_string str replaceWith hfind
    refine ⟨⟨r, hr, fun _ => hreplaced⟩, ?_, ?_⟩
    · rintro c rfl
      obtain ⟨r', hr', hreplaced'⟩ := returns_charString str replaceWith c
      obtain rfl := hreplaced.unique hreplaced'
      exact ⟨r, hr', hr⟩
    · rintro c d rfl rfl
      obtain ⟨r', hr', hreplaced'⟩ := returns_charChar str c d
      obtain rfl := hreplaced.unique hreplaced'
      exact ⟨r, hr', hr⟩

/-- Nothing in place of nothing. -/
theorem not_replaces_nothing : ¬ Replaces (ascii "a") [] [] := fun h =>
  not_returns_empty (ascii "a") [] _ h.returns.choose_spec.1

end Luwu.HashUtil
