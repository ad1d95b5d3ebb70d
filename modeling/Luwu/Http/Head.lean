import Luwu.Http.Message

/-!
# The head of a message

A text is cut into lines by CRLF.  The head of a message ends at the first empty line, and the lines
behind the first one are its header fields.
-/

namespace Luwu.Http

open Lib HttpParser

/-! ## Lines -/

/-- The lines of a text, as its CRLFs cut it.  `line` is the beginning of the current line. -/
def textLines : Bytes → Bytes → List Bytes
  | line, [] => [line]
  | line, [c] => [line ++ [c]]
  | line, c :: c' :: d =>
    if c = CR ∧ c' = LF then line :: textLines [] d else textLines (line ++ [c]) (c' :: d)

/-- The lines of a text up to the first one that is empty, and what comes behind it.  `line` is the
beginning of the current line. -/
def headLines : Bytes → Bytes → List Bytes × Bytes
  | _, [] => ([], [])
  | _, [_] => ([], [])
  | line, c :: c' :: d =>
    if c = CR ∧ c' = LF then
      if line = [] then ([], d)
      else (line :: (headLines [] d).1, (headLines [] d).2)
    else headLines (line ++ [c]) (c' :: d)

theorem headLines_crlf (line d : Bytes) :
    headLines line (crlf ++ d) =
      if line = [] then ([], d) else (line :: (headLines [] d).1, (headLines [] d).2) := by
  show headLines line (CR :: LF :: d) = _
  rw [headLines, if_pos ⟨rfl, rfl⟩]

theorem headLines_go {line d : Bytes} {c c' : UInt8} (h : ¬ (c = CR ∧ c' = LF)) :
    headLines line (c :: c' :: d) = headLines (line ++ [c]) (c' :: d) := by
  rw [headLines, if_neg h]

/-- A text with no empty line in it is a part of the head. -/
theorem headLines_full (line x d : Bytes) (h : ∀ l ∈ textLines line x, l ≠ []) :
    headLines line (x ++ (crlf ++ d)) =
      (textLines line x ++ (headLines [] d).1, (headLines [] d).2) := by
  fun_induction textLines line x with
  | case1 line =>
    rw [List.nil_append, headLines_crlf, if_neg (h _ List.mem_cons_self)]
    rfl
  | case2 line c =>
    have hne : line ++ [c] ≠ [] := h _ List.mem_cons_self
    show headLines line (c :: CR :: LF :: d) = _
    rw [headLines_go (fun hc => absurd hc.2 (by decide))]
    show headLines (line ++ [c]) (crlf ++ d) = _
    rw [headLines_crlf, if_neg hne]
    rfl
  | case3 line c c' x hc ih =>
    have hne : line ≠ [] := h _ List.mem_cons_self
    obtain ⟨rfl, rfl⟩ := hc
    rw [List.cons_append, List.cons_append, headLines, if_pos ⟨rfl, rfl⟩, if_neg hne,
      ih fun l hl => h l (List.mem_cons_of_mem _ hl)]
    rfl
  | case4 line c c' x hc ih =>
    rw [List.cons_append, List.cons_append, headLines_go hc]
    exact ih h

/-- The head ends at the first empty line of a text that has one. -/
theorem headLines_cut (line x d : Bytes) (h : [] ∈ textLines line x) :
    (headLines line (x ++ (crlf ++ d))).1 = (textLines line x).takeWhile (· ≠ []) ∧
      d.length ≤ (headLines line (x ++ (crlf ++ d))).2.length := by
  fun_induction textLines line x with
  | case1 line =>
    have hline : line = [] := (List.mem_singleton.mp h).symm
    rw [List.nil_append, headLines_crlf, if_pos hline, hline]
    exact ⟨rfl, le_rfl⟩
  | case2 line c => exact absurd (List.mem_singleton.mp h).symm (by simp)
  | case3 line c c' x hc ih =>
    obtain ⟨rfl, rfl⟩ := hc
    rw [List.cons_append, List.cons_append, headLines, if_pos ⟨rfl, rfl⟩]
    by_cases hline : line = []
    · rw [if_pos hline, List.takeWhile_cons_of_neg (by simpa using hline)]
      refine ⟨rfl, ?_⟩
      rw [List.length_append, List.length_append]
      omega
    · have hrest : [] ∈ textLines [] x := (List.mem_cons.mp h).resolve_left (Ne.symm hline)
      obtain ⟨hlines, hlen⟩ := ih hrest
      rw [if_neg hline, List.takeWhile_cons_of_pos (by simpa using hline)]
      exact ⟨congrArg (line :: ·) hlines, hlen⟩
  | case4 line c c' x hc ih =>
    rw [List.cons_append, List.cons_append, headLines_go hc]
    exact ih h

/-- What is behind an empty line does not count. -/
theorem takeWhile_append_of_cut {ls : List Bytes} (h : [] ∈ ls) (ls' : List Bytes) :
    (ls ++ ls').takeWhile (· ≠ []) = ls.takeWhile (· ≠ []) := by
  induction ls with
  | nil => cases h
  | cons l ls ih =>
    rw [List.cons_append]
    by_cases hl : l = []
    · rw [List.takeWhile_cons_of_neg (by simpa using hl),
        List.takeWhile_cons_of_neg (by simpa using hl)]
    · rw [List.takeWhile_cons_of_pos (by simpa using hl),
        List.takeWhile_cons_of_pos (by simpa using hl),
        ih ((List.mem_cons.mp h).resolve_left (Ne.symm hl))]

/-- **The head of some texts, each with a CRLF behind it, is made of their lines up to the first
empty one**, and it is followed by the body just when there is none. -/
theorem headLines_texts (xs : List Bytes) (body : Bytes) :
    (headLines [] (xs.flatMap (· ++ crlf) ++ (crlf ++ body))).1 =
        (xs.flatMap (textLines [])).takeWhile (· ≠ []) ∧
      ((headLines [] (xs.flatMap (· ++ crlf) ++ (crlf ++ body))).2 = body ↔
        ∀ l ∈ xs.flatMap (textLines []), l ≠ []) := by
  induction xs with
  | nil =>
    show (headLines [] (crlf ++ body)).1 = [] ∧ _
    rw [headLines_crlf, if_pos rfl]
    exact ⟨rfl, iff_of_true rfl (by simp)⟩
  | cons x xs ih =>
    rw [List.flatMap_cons, List.flatMap_cons, List.append_assoc, List.append_assoc]
    generalize hd : xs.flatMap (· ++ crlf) ++ (crlf ++ body) = d at ih
    by_cases h : [] ∈ textLines [] x
    · obtain ⟨hlines, hlen⟩ := headLines_cut [] x d h
      -- what is left behind an empty line is longer than the body
      have hmore : body.length < d.length := by
        rw [← hd, List.length_append, List.length_append]
        show _ < _ + (2 + _)
        omega
      constructor
      · rw [hlines, takeWhile_append_of_cut h]
      · refine iff_of_false (fun hbody => ?_) fun hall => ?_
        · rw [hbody] at hlen
          omega
        · exact hall [] (List.mem_append_left _ h) rfl
    · have hfull : ∀ l ∈ textLines [] x, l ≠ [] := fun l hl hnil => h (hnil ▸ hl)
      rw [headLines_full [] x d hfull]
      constructor
      · rw [ih.1, List.takeWhile_append_of_pos fun l hl => by simpa using hfull l hl]
      · rw [ih.2]
        constructor
        · intro hall l hl
          rcases List.mem_append.mp hl with hl | hl
          · exact hfull l hl
          · exact hall l hl
        · exact fun hall l hl => hall l (List.mem_append_right _ hl)

/-! ## Texts of one line -/

theorem textLines_of_not_mem {x : Bytes} (hx : LF ∉ x) (line : Bytes) :
    textLines line x = [line ++ x] := by
  fun_induction textLines line x with
  | case1 line => rw [List.append_nil]
  | case2 line c => rfl
  | case3 line c c' x hc ih =>
    rw [hc.2] at hx
    exact absurd (List.mem_cons_of_mem _ List.mem_cons_self) hx
  | case4 line c c' x hc ih =>
    rw [ih fun h => hx (List.mem_cons_of_mem _ h), List.append_assoc]
    rfl

/-- The first line of a text begins with what has been read of it. -/
theorem head_textLines (line x : Bytes) : ∃ l rest, textLines line x = l :: rest ∧ line <+: l := by
  fun_induction textLines line x with
  | case1 line => exact ⟨line, [], rfl, List.prefix_rfl⟩
  | case2 line c => exact ⟨_, [], rfl, List.prefix_append _ _⟩
  | case3 line c c' x hc ih => exact ⟨line, _, rfl, List.prefix_rfl⟩
  | case4 line c c' x hc ih =>
    obtain ⟨l, rest, heq, hle⟩ := ih
    exact ⟨l, rest, heq, (List.prefix_append _ _).trans hle⟩

/-- The first line of a text is not empty, if the text does not begin with a CR. -/
theorem head_textLines_ne_nil {c : UInt8} (hc : c ≠ CR) (x : Bytes) :
    ∃ l rest, textLines [] (c :: x) = l :: rest ∧ l ≠ [] := by
  cases x with
  | nil => exact ⟨[c], [], rfl, List.cons_ne_nil _ _⟩
  | cons c' x =>
    rw [textLines, if_neg fun h => hc h.1]
    obtain ⟨l, rest, heq, hle⟩ := head_textLines ([] ++ [c]) (c' :: x)
    refine ⟨l, rest, heq, fun hl => ?_⟩
    rw [hl] at hle
    exact absurd (List.prefix_nil.mp hle) (List.cons_ne_nil _ _)

/-! ## Fields -/

/-- The name and the value of a line: what is in front of its first colon, and what is behind it but
for one space. -/
def field (line : Bytes) : Option (Bytes × Bytes) :=
  if ':'.toUInt8 ∈ line then
    let value := (line.dropWhile (· ≠ ':'.toUInt8)).drop 1
    some (line.takeWhile (· ≠ ':'.toUInt8),
      if value.head? = some ' '.toUInt8 then value.drop 1 else value)
  else none

/-- The header fields of a text. -/
def fields (d : Bytes) : List (Bytes × Bytes) := (headLines [] d).1.tail.filterMap field

def lineText (e : Bytes × Bytes) : Bytes := e.1 ++ ascii ": " ++ e.2

theorem field_lineText {e : Bytes × Bytes} (h : ':'.toUInt8 ∉ e.1) :
    field (lineText e) = some e := by
  have htext : lineText e = e.1 ++ ':'.toUInt8 :: ' '.toUInt8 :: e.2 := List.append_assoc _ _ _
  have hname : ∀ c ∈ e.1, decide (c ≠ ':'.toUInt8) = true := by
    intro c hc
    simpa using fun heq : c = ':'.toUInt8 => h (heq ▸ hc)
  rw [field, if_pos (by simp [htext]), htext, List.dropWhile_append_of_pos hname,
    List.takeWhile_append_of_pos hname, List.dropWhile_cons_of_neg (by simp),
    List.takeWhile_cons_of_neg (by simp), List.append_nil]
  rfl

end Luwu.Http
