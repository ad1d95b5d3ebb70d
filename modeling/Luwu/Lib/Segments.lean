import Mathlib.Data.List.Basic

/-!
# Segments of a text

An automaton reads a text, and some of its states have a label.  The segment of a label is what the
automaton reads into states with this label.  Where the automaton never goes back to a state of a
lower phase, and the label of a state is that of its phase, each segment is read without
interruption.
-/

namespace Luwu.Lib

section

variable {σ α φ : Type*} [DecidableEq φ] {step : σ → α → σ} {label : σ → Option φ} {f : φ}

/-- What is read into states with the label `f`. -/
def readInto (step : σ → α → σ) (label : σ → Option φ) (f : φ) : σ → List α → List α
  | _, [] => []
  | s, a :: w =>
    if label (step s a) = some f then a :: readInto step label f (step s a) w
    else readInto step label f (step s a) w

@[simp] theorem readInto_nil (s : σ) : readInto step label f s [] = [] := rfl

theorem readInto_append (s : σ) (w w' : List α) :
    readInto step label f s (w ++ w') =
      readInto step label f s w ++ readInto step label f (w.foldl step s) w' := by
  induction w generalizing s with
  | nil => rfl
  | cons a w ih =>
    rw [List.cons_append, readInto, readInto, List.foldl_cons, ih]
    split <;> rfl

theorem readInto_snoc (s : σ) (w : List α) (a : α) :
    readInto step label f s (w ++ [a]) = readInto step label f s w ++
      if label (step (w.foldl step s) a) = some f then [a] else [] :=
  readInto_append s w [a]

theorem foldl_of_stays {s : σ} {w : List α} (h : ∀ a ∈ w, step s a = s) : w.foldl step s = s := by
  induction w with
  | nil => rfl
  | cons a w ih =>
    rw [List.foldl_cons, h a List.mem_cons_self]
    exact ih fun a ha => h a (List.mem_cons_of_mem _ ha)

/-- A text that does not leave a state. -/
theorem readInto_of_stays {s : σ} {w : List α} (h : ∀ a ∈ w, step s a = s) :
    readInto step label f s w = if label s = some f then w else [] := by
  induction w with
  | nil => rw [readInto_nil, ite_self]
  | cons a w ih =>
    rw [readInto, h a List.mem_cons_self, ih fun a ha => h a (List.mem_cons_of_mem _ ha)]
    split <;> rfl

/-- A text whose first character leads to a state that the others do not leave. -/
theorem readInto_of_enters {s s' : σ} {a : α} {w : List α} (ha : step s a = s')
    (h : ∀ a ∈ w, step s' a = s') :
    readInto step label f s (a :: w) = if label s' = some f then a :: w else [] := by
  rw [readInto, ha, readInto_of_stays h]
  split <;> rfl

/-- What holds of each character that is read into a label holds of the segment; `I` is what is
known of the states. -/
theorem readInto_forall {I : σ → Prop} {P : α → Prop} {w : List α}
    (hI : ∀ s, ∀ a ∈ w, I s → I (step s a))
    (hP : ∀ s, ∀ a ∈ w, I s → label (step s a) = some f → P a) {s : σ} (hs : I s) :
    ∀ a ∈ readInto step label f s w, P a := by
  induction w generalizing s with
  | nil => simp
  | cons a w ih =>
    have hnext := ih (fun s a ha => hI s a (List.mem_cons_of_mem _ ha))
      (fun s a ha => hP s a (List.mem_cons_of_mem _ ha)) (hI s a List.mem_cons_self hs)
    rw [readInto]
    split
    · next h =>
      rw [List.forall_mem_cons]
      exact ⟨hP s a List.mem_cons_self hs h, hnext⟩
    · exact hnext

/-- What holds of each character that enters a label holds of the first one of the segment. -/
theorem readInto_head {I : σ → Prop} {P : α → Prop} (hI : ∀ s a, I s → I (step s a))
    (hP : ∀ s a, I s → label s ≠ some f → label (step s a) = some f → P a) {s : σ} (hs : I s)
    (hout : label s ≠ some f) (w : List α) : ∀ a ∈ (readInto step label f s w).head?, P a := by
  induction w generalizing s with
  | nil => simp
  | cons a w ih =>
    rw [readInto]
    split
    · next h =>
      rintro b hb
      cases hb
      exact hP s a hs hout h
    · next h => exact ih (hI s a hs) h

/-- Something has been read into the label of the state that is reached. -/
theorem readInto_ne_nil {s : σ} {w : List α} (hout : label s ≠ some f)
    (h : label (w.foldl step s) = some f) : readInto step label f s w ≠ [] := by
  induction w generalizing s with
  | nil => exact absurd h hout
  | cons a w ih =>
    rw [readInto]
    split
    · exact List.cons_ne_nil _ _
    · next hnext => exact ih hnext h

section

variable {phase : σ → Nat} {place : φ → Nat}

theorem le_phase_foldl (hmono : ∀ s a, phase s ≤ phase (step s a)) (s : σ) (w : List α) :
    phase s ≤ phase (w.foldl step s) := by
  induction w generalizing s with
  | nil => exact Nat.le_refl _
  | cons a w ih => exact Nat.le_trans (hmono s a) (ih (step s a))

/-- The phase of a label has been reached when something has been read into it. -/
theorem le_phase_of_readInto (hmono : ∀ s a, phase s ≤ phase (step s a))
    (hlabel : ∀ s, label s = some f → phase s = place f) {s : σ} {w : List α}
    (h : readInto step label f s w ≠ []) : place f ≤ phase (w.foldl step s) := by
  induction w generalizing s with
  | nil => exact absurd rfl h
  | cons a w ih =>
    rw [List.foldl_cons]
    rw [readInto] at h
    split at h
    · next hf => exact Nat.le_trans (Nat.le_of_eq (hlabel _ hf).symm) (le_phase_foldl hmono _ w)
    · exact ih h

/-- Nothing is read into a label whose phase is over. -/
theorem readInto_eq_nil_of_past (hmono : ∀ s a, phase s ≤ phase (step s a))
    (hlabel : ∀ s, label s = some f → phase s = place f) {s : σ} (hs : place f < phase s)
    (w : List α) : readInto step label f s w = [] := by
  induction w generalizing s with
  | nil => rfl
  | cons a w ih =>
    have hnext := Nat.lt_of_lt_of_le hs (hmono s a)
    have hout : label (step s a) ≠ some f := fun h => Nat.ne_of_gt hnext (hlabel _ h)
    rw [readInto, if_neg hout]
    exact ih hnext

/-- Nothing has been read into a label that is entered. -/
theorem readInto_eq_nil_of_enters (hmono : ∀ s a, phase s ≤ phase (step s a))
    (hlabel : ∀ s, label s = some f ↔ phase s = place f) {s : σ} {w : List α} {a : α}
    (hout : label (w.foldl step s) ≠ some f) (hin : label (step (w.foldl step s) a) = some f) :
    readInto step label f s w = [] := by
  by_contra hne
  have hle := le_phase_of_readInto hmono (fun s => (hlabel s).mp) hne
  have hnext := hmono (w.foldl step s) a
  rw [(hlabel _).mp hin] at hnext
  exact hout ((hlabel _).mpr (Nat.le_antisymm hnext hle))

end

/-- The automaton gets from `s` to `t` over `w`, and `g` are the segments. -/
structure Spans (step : σ → α → σ) (label : σ → Option φ) (s : σ) (w : List α) (t : σ)
    (g : φ → List α) : Prop where
  run : w.foldl step s = t
  parts : ∀ f, readInto step label f s w = g f

theorem Spans.nil (s : σ) : Spans step label s [] s fun _ => [] := ⟨rfl, fun _ => rfl⟩

theorem Spans.append {s t t' : σ} {w w' : List α} {g g' : φ → List α}
    (h : Spans step label s w t g) (h' : Spans step label t w' t' g') :
    Spans step label s (w ++ w') t' fun f => g f ++ g' f := by
  constructor
  case run => rw [List.foldl_append, h.run, h'.run]
  case parts =>
    intro f
    rw [readInto_append, h.run, h.parts, h'.parts]

/-- A text that is read into one label. -/
def only (f : φ) (w : List α) (f' : φ) : List α := if f = f' then w else []

/-- A text whose first character leads to a state with a label, which the others do not leave. -/
theorem Spans.enter {s t : σ} {a : α} {w : List α} (ha : step s a = t) (h : ∀ a ∈ w, step t a = t)
    (hf : label t = some f) : Spans step label s (a :: w) t (only f (a :: w)) := by
  constructor
  case run =>
    rw [List.foldl_cons, ha]
    exact foldl_of_stays h
  case parts =>
    intro f'
    rw [readInto_of_enters ha h, hf, only]
    simp only [Option.some.injEq]

/-- A text of which every character leads to a state with a label, or stays there. -/
theorem Spans.into {s t : σ} {w : List α} (hw : w ≠ [])
    (h : ∀ a ∈ w, step s a = t ∧ step t a = t) (hf : label t = some f) :
    Spans step label s w t (only f w) := by
  obtain ⟨a, rest, rfl⟩ := List.exists_cons_of_ne_nil hw
  exact .enter (h a List.mem_cons_self).1 (fun b hb => (h b (List.mem_cons_of_mem a hb)).2) hf

theorem only_append (f f' : φ) (w w' : List α) :
    only f w f' ++ only f w' f' = only f (w ++ w') f' := by
  unfold only
  split <;> rfl

/-- A delimiter. -/
theorem Spans.skip {s t : σ} {a : α} (ha : step s a = t) (hf : label t = none) :
    Spans step label s [a] t fun _ => [] := by
  constructor
  case run => exact ha
  case parts =>
    intro f'
    rw [readInto, ha, hf]
    exact if_neg (by simp)

end

end Luwu.Lib
