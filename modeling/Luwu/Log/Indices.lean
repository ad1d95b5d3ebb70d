import Mathlib.Data.List.GetD
import Luwu.Log.Rendering

/-!
# The indices of the pattern scanner

The scanner of `LogFormatter::init` again, with its index and with every `m_pattern[i]` that it
evaluates.  An index up to `m_pattern.size()` is allowed; the character there is the terminating
zero.
-/

namespace Luwu.LogFormatter

/-! ## The loops -/

/-- `i` and the local variables, and the indices at which `m_pattern` has been read. -/
structure Walk where
  i : Nat := 0
  scan : Scan := {}
  reads : List Nat := []

/-- What memory holds at `m_pattern[i]`. -/
def charAt (behind : UInt8) (pattern : Bytes) (i : Nat) : UInt8 :=
  (pattern ++ [0, behind]).getD i 0

/-- `m_pattern[i]` is evaluated. -/
def Walk.read (w : Walk) : Walk := { w with reads := w.reads ++ [w.i] }

/-- `++i`. -/
def Walk.next (w : Walk) : Walk := { w with i := w.i + 1 }

/-- `while (i < m_pattern.size() && m_pattern[i] != '}') { data_format.push_back(m_pattern[i]);
++i; }` for at most so many turns. -/
def formatLoop (behind : UInt8) (pattern : Bytes) : Nat → Walk → Option Walk
  | 0, _ => none
  | turns + 1, w =>
    if w.i < pattern.length then
      let c := charAt behind pattern w.i
      if c ≠ '}'.toUInt8 then
        let s := { w.scan with dataFormat := w.scan.dataFormat ++ [c] }
        formatLoop behind pattern turns { w.read.read with scan := s }.next
      else some w.read
    else some w

/-- `if (m_pattern[i] != '}') { error = true; break; } ++i;`, whatever `i` is. -/
def closeBrace (behind : UInt8) (pattern : Bytes) (next : Walk → Option Walk) (w : Walk) :
    Option Walk :=
  if charAt behind pattern w.i ≠ '}'.toUInt8 then
    some { w.read with scan := { w.scan with error := true } }
  else next w.read.next

/-- `while (i < m_pattern.size())`, for at most so many turns. -/
def scanLoop (behind : UInt8) (pattern : Bytes) : Nat → Walk → Option Walk
  | 0, _ => none
  | turns + 1, w =>
    if w.i < pattern.length then
      let c := charAt behind pattern w.i
      let w := w.read
      if c = '%'.toUInt8 then
        if w.scan.parsingString then
          scanLoop behind pattern turns
            { w with scan := { w.scan.flush with parsingString := false } }.next
        else scanLoop behind pattern turns { w with scan := w.scan.directive c }.next
      else if w.scan.parsingString then
        scanLoop behind pattern turns
          { w with scan := { w.scan with tmp := w.scan.tmp ++ [c] } }.next
      else
        let w := { w with scan := w.scan.directive c }.next
        if c ≠ 'd'.toUInt8 then scanLoop behind pattern turns w
        else
          -- `if (i < m_pattern.size() && m_pattern[i] != '{') continue;`
          let w := if w.i < pattern.length then w.read else w
          if w.i < pattern.length ∧ charAt behind pattern w.i ≠ '{'.toUInt8 then
            scanLoop behind pattern turns w
          else
            (formatLoop behind pattern turns w.next).bind
              (closeBrace behind pattern fun w => scanLoop behind pattern turns w)
    else some w

/-- Every `m_pattern[i]` so far had an index up to the size. -/
def Walk.Inside (size : Nat) (w : Walk) : Prop := ∀ i ∈ w.reads, i ≤ size

/-- The last of the pieces is a `%d` without braces. -/
def DateLast (ps : List Piece) : Prop := ps.getLast? = some (.date none)

section

variable {behind : UInt8} {pattern pre rest : Bytes} {c : UInt8} {size turns : Nat} {w : Walk}

/-! ## Characters and indices -/

theorem charAt_cons {i : Nat} (hpattern : pattern = pre ++ c :: rest) (hi : i = pre.length) :
    charAt behind pattern i = c := by
  rw [charAt, hpattern, hi, List.append_assoc, List.getD_append_right _ _ _ _ (Nat.le_refl _),
    Nat.sub_self]
  rfl

theorem lt_length {i : Nat} (hpattern : pattern = pre ++ c :: rest) (hi : i = pre.length) :
    i < pattern.length := by
  rw [hi, hpattern, List.length_append, List.length_cons]
  omega

theorem charAt_size (behind : UInt8) (pattern : Bytes) :
    charAt behind pattern pattern.length = 0 := by
  rw [charAt, List.getD_append_right _ _ _ _ (Nat.le_refl _), Nat.sub_self]
  rfl

theorem charAt_behind (behind : UInt8) (pattern : Bytes) :
    charAt behind pattern (pattern.length + 1) = behind := by
  rw [charAt, List.getD_append_right _ _ _ _ (Nat.le_add_right _ 1), Nat.add_sub_cancel_left]
  rfl

theorem inside_read_iff (size : Nat) (w : Walk) :
    w.read.Inside size ↔ w.Inside size ∧ w.i ≤ size := by
  rw [Walk.Inside, Walk.Inside, Walk.read]
  simp [or_imp, forall_and]

theorem inside_read (h : w.i ≤ size) : w.read.Inside size ↔ w.Inside size := by
  rw [inside_read_iff, and_iff_left h]

/-! ## The branches of `scan` -/

section

variable {s : Scan} {b : UInt8} {format : Bytes}

theorem scan_directive (hstate : s.parsingString = false) (hd : c ≠ 'd'.toUInt8) :
    LogFormatter.scan behind (c :: rest) s = LogFormatter.scan behind rest (s.directive c) := by
  rw [LogFormatter.scan.eq_def]
  simp only [hstate, Bool.false_eq_true, if_false, if_pos hd, ite_self]

theorem scan_date_end (hstate : s.parsingString = false) :
    LogFormatter.scan behind ['d'.toUInt8] s =
      if behind ≠ '}'.toUInt8 then { s.directive 'd'.toUInt8 with error := true }
      else s.directive 'd'.toUInt8 := by
  have hpercent : 'd'.toUInt8 ≠ '%'.toUInt8 := by decide
  rw [LogFormatter.scan.eq_def]
  simp only [hstate, if_neg hpercent, Bool.false_eq_true, if_false, ne_eq, not_true]

theorem scan_date_plain (hstate : s.parsingString = false) (hb : b ≠ '{'.toUInt8) :
    LogFormatter.scan behind ('d'.toUInt8 :: b :: format) s =
      LogFormatter.scan behind (b :: format) (s.directive 'd'.toUInt8) := by
  have hpercent : 'd'.toUInt8 ≠ '%'.toUInt8 := by decide
  rw [LogFormatter.scan.eq_def]
  simp only [hstate, if_neg hpercent, Bool.false_eq_true, if_false, ne_eq, not_true, hb,
    not_false_eq_true, if_true]

theorem scan_date_unclosed (hstate : s.parsingString = false)
    (hclose : format.dropWhile (· ≠ '}'.toUInt8) = []) :
    LogFormatter.scan behind ('d'.toUInt8 :: '{'.toUInt8 :: format) s =
      { s.directive 'd'.toUInt8 with
        dataFormat := s.dataFormat ++ format.takeWhile (· ≠ '}'.toUInt8), error := true } := by
  have hpercent : 'd'.toUInt8 ≠ '%'.toUInt8 := by decide
  rw [LogFormatter.scan.eq_def]
  dsimp only
  rw [if_neg hpercent, if_neg (by simp [hstate]), if_neg (not_not.mpr rfl),
    if_neg (not_not.mpr rfl)]
  split
  · rfl
  · next h =>
    rw [hclose] at h
    cases h

theorem scan_date_closed {after : Bytes} (hstate : s.parsingString = false)
    (hclose : format.dropWhile (· ≠ '}'.toUInt8) = b :: after) :
    LogFormatter.scan behind ('d'.toUInt8 :: '{'.toUInt8 :: format) s =
      LogFormatter.scan behind after { s.directive 'd'.toUInt8 with
        dataFormat := s.dataFormat ++ format.takeWhile (· ≠ '}'.toUInt8) } := by
  have hpercent : 'd'.toUInt8 ≠ '%'.toUInt8 := by decide
  rw [LogFormatter.scan.eq_def]
  dsimp only
  rw [if_neg hpercent, if_neg (by simp [hstate]), if_neg (not_not.mpr rfl),
    if_neg (not_not.mpr rfl)]
  split
  · next h =>
    rw [hclose] at h
    cases h
  · next h =>
    rw [hclose] at h
    cases h
    rfl

end

/-! ## What the loops do -/

/-- The inner loop stays inside, and leaves `i` at the closing brace or at the size. -/
theorem formatLoop_eq (behind : UInt8) (hpattern : pattern = pre ++ rest) (hi : w.i = pre.length)
    (hturns : rest.length < turns) :
    ∃ w', formatLoop behind pattern turns w = some w' ∧
      w'.i = (pre ++ rest.takeWhile (· ≠ '}'.toUInt8)).length ∧
      w'.scan = { w.scan with
        dataFormat := w.scan.dataFormat ++ rest.takeWhile (· ≠ '}'.toUInt8) } ∧
      (w'.Inside pattern.length ↔ w.Inside pattern.length) := by
  -- on the turns; `pre` grows by what they go through
  induction turns generalizing pre rest w with
  | zero => exact absurd hturns (Nat.not_lt_zero _)
  | succ turns ih =>
    cases rest with
    | nil =>
      have hend : ¬ w.i < pattern.length := by simp [hi, hpattern]
      refine ⟨w, ?_, by simpa using hi, by simp, Iff.rfl⟩
      rw [formatLoop, if_neg hend]
    | cons c rest =>
      have hlt : w.i < pattern.length := lt_length hpattern hi
      have hc : charAt behind pattern w.i = c := charAt_cons hpattern hi
      -- the character is read by the test and, unless it is the brace, by the body
      rw [formatLoop, if_pos hlt, hc]
      by_cases hclose : c = '}'.toUInt8
      · rw [List.takeWhile_cons_of_neg (by simpa using hclose), List.append_nil, List.append_nil]
        refine ⟨w.read, ?_, hi, rfl, inside_read hlt.le⟩
        exact if_neg (not_not.mpr hclose)
      · rw [List.takeWhile_cons_of_pos (by simpa using hclose)]
        have hnext : pattern = (pre ++ [c]) ++ rest := by rw [hpattern, List.append_assoc]; rfl
        obtain ⟨w', hrun, hi', hscan, hinside⟩ := ih
          (w := Walk.next { w.read.read with
            scan := { w.scan with dataFormat := w.scan.dataFormat ++ [c] } })
          hnext (by rw [List.length_append, ← hi]; rfl) (Nat.lt_of_succ_lt_succ hturns)
        refine ⟨w', (if_pos hclose).trans hrun, ?_, ?_, ?_⟩
        · rw [hi', List.append_assoc]
          rfl
        · rw [hscan]
          simp [Walk.next]
        · rw [hinside]
          exact (inside_read (w := w.read) hlt.le).trans (inside_read hlt.le)

/-- The pieces of what is left of the pattern. -/
def Scan.pieces (s : Scan) (rest : Bytes) : List Piece :=
  if s.parsingString then LogFormatter.pieces rest else piecesDirective rest

theorem Scan.pieces_text {s : Scan} (h : s.parsingString = true) (rest : Bytes) :
    s.pieces rest = LogFormatter.pieces rest := if_pos h

theorem Scan.pieces_directive {s : Scan} (h : s.parsingString = false) (rest : Bytes) :
    s.pieces rest = piecesDirective rest := if_neg (by simp [h])

/-- From `w` on, with `rest` left of the pattern, the loop ends.  It does what `scan` does, and it
stays inside unless the pattern ends in a date. -/
def Walks (behind : UInt8) (pattern rest : Bytes) (turns : Nat) (w : Walk) : Prop :=
  ∃ w', scanLoop behind pattern turns w = some w' ∧ w'.scan = LogFormatter.scan behind rest w.scan ∧
    (w'.Inside pattern.length ↔ w.Inside pattern.length ∧ ¬ DateLast (w.scan.pieces rest))

/-- One turn of the loop. -/
theorem Walks.turn {turns' : Nat} {rest' : Bytes} {w' : Walk}
    (h : Walks behind pattern rest' turns' w')
    (hrun : scanLoop behind pattern turns w = scanLoop behind pattern turns' w')
    (hscan : LogFormatter.scan behind rest w.scan = LogFormatter.scan behind rest' w'.scan)
    (hinside : w'.Inside pattern.length ↔ w.Inside pattern.length)
    (hend : DateLast (w.scan.pieces rest) ↔ DateLast (w'.scan.pieces rest')) :
    Walks behind pattern rest turns w := by
  obtain ⟨w'', hrun', hscan', hinside'⟩ := h
  refine ⟨w'', hrun.trans hrun', hscan'.trans hscan.symm, ?_⟩
  rw [hinside', hinside, hend]

/-! ## Dates -/

/-- The walk behind a directive. -/
def Walk.directive (w : Walk) (c : UInt8) : Walk :=
  Walk.next { w.read with scan := w.scan.directive c }

theorem inside_directive (h : w.i ≤ size) (c : UInt8) :
    (w.directive c).Inside size ↔ w.Inside size := inside_read h

/-- The loop body for a `%d`. -/
theorem scanLoop_date {v : Walk} (turns : Nat) (hlt : w.i < pattern.length)
    (hc : charAt behind pattern w.i = 'd'.toUInt8) (hstate : w.scan.parsingString = false)
    (hv : v = if w.i + 1 < pattern.length then (w.directive 'd'.toUInt8).read
      else w.directive 'd'.toUInt8) :
    scanLoop behind pattern (turns + 1) w =
      if v.i < pattern.length ∧ charAt behind pattern v.i ≠ '{'.toUInt8 then
        scanLoop behind pattern turns v
      else (formatLoop behind pattern turns v.next).bind
        (closeBrace behind pattern (scanLoop behind pattern turns)) := by
  have hpercent : 'd'.toUInt8 ≠ '%'.toUInt8 := by decide
  have hno : ¬ w.scan.parsingString = true := by simp [hstate]
  rw [scanLoop, if_pos hlt, hc, hv]
  exact ((if_neg hpercent).trans (if_neg hno)).trans (if_neg (not_not.mpr rfl))

/-- A `%d` at the end: `m_pattern[i]` is read for an index that is one more than the size. -/
theorem walks_date_end (hpattern : pattern = pre ++ ['d'.toUInt8]) (hi : w.i = pre.length)
    (hstate : w.scan.parsingString = false) (hturns : 0 < turns) :
    Walks behind pattern ['d'.toUInt8] (turns + 1) w := by
  obtain ⟨turns, rfl⟩ : ∃ k, turns = k + 1 := ⟨turns - 1, by omega⟩
  have hsize : pattern.length = w.i + 1 := by rw [hi, hpattern, List.length_append]; rfl
  have hc : charAt behind pattern w.i = 'd'.toUInt8 := charAt_cons hpattern hi
  obtain ⟨v, hv⟩ : ∃ v, v = (w.directive 'd'.toUInt8).next := ⟨_, rfl⟩
  have hvi : v.i = pattern.length + 1 := by rw [hv, hsize]; rfl
  have hend : ¬ w.i + 1 < pattern.length := by omega
  have hrun : scanLoop behind pattern (turns + 1 + 1) w =
      closeBrace behind pattern (scanLoop behind pattern (turns + 1)) v := by
    have hformat : formatLoop behind pattern (turns + 1) v = some v := by
      rw [formatLoop, if_neg (by omega)]
    rw [scanLoop_date _ (by omega) hc hstate (if_neg hend).symm, if_neg fun h => hend h.1, ← hv,
      hformat, Option.bind_some]
  rw [closeBrace, hvi, charAt_behind] at hrun
  -- a walk with that read is not inside
  have hout (w' : Walk) (h : v.i ∈ w'.reads) : ¬ w'.Inside pattern.length := by
    intro hinside
    have hle := hinside _ h
    omega
  have hdate : DateLast (w.scan.pieces ['d'.toUInt8]) := by
    rw [Scan.pieces_directive hstate]
    rfl
  have hvscan : v.scan = w.scan.directive 'd'.toUInt8 := by rw [hv]; rfl
  have hscan : LogFormatter.scan behind ['d'.toUInt8] w.scan = _ := scan_date_end hstate
  by_cases hb : behind = '}'.toUInt8
  · have hstop : scanLoop behind pattern (turns + 1) v.read.next = some v.read.next := by
      rw [scanLoop, if_neg]
      show ¬ v.i + 1 < pattern.length
      omega
    rw [if_neg (not_not.mpr hb), hstop] at hrun
    rw [if_neg (not_not.mpr hb)] at hscan
    exact ⟨_, hrun, hvscan.trans hscan.symm,
      iff_of_false (hout _ (by simp [Walk.read, Walk.next])) fun h => h.2 hdate⟩
  · rw [if_pos hb] at hrun hscan
    refine ⟨_, hrun, ?_, iff_of_false (hout _ (by simp [Walk.read])) fun h => h.2 hdate⟩
    rw [hscan, ← hvscan]

section

variable {b : UInt8} {format : Bytes}

/-- A `%d` with something behind it: the loop body, from the test for a brace on. -/
theorem scanLoop_date_cons (hpattern : pattern = pre ++ 'd'.toUInt8 :: b :: format)
    (hi : w.i = pre.length) (hstate : w.scan.parsingString = false) :
    scanLoop behind pattern (turns + 1) w =
      if b ≠ '{'.toUInt8 then scanLoop behind pattern turns (w.directive 'd'.toUInt8).read
      else (formatLoop behind pattern turns (w.directive 'd'.toUInt8).read.next).bind
        (closeBrace behind pattern (scanLoop behind pattern turns)) := by
  have hc : charAt behind pattern w.i = 'd'.toUInt8 := charAt_cons hpattern hi
  have hlen : w.i + 1 = (pre ++ ['d'.toUInt8]).length := by rw [hi, List.length_append]; rfl
  have hsplit : pattern = (pre ++ ['d'.toUInt8]) ++ b :: format := by
    rw [hpattern, List.append_assoc]
    rfl
  have hb : charAt behind pattern (w.i + 1) = b := charAt_cons hsplit hlen
  have hsize : w.i + 1 < pattern.length := lt_length hsplit hlen
  have hrun := scanLoop_date turns (Nat.lt_of_succ_lt hsize) hc hstate rfl
  rw [if_pos hsize] at hrun
  rw [hrun]
  show (if w.i + 1 < pattern.length ∧ charAt behind pattern (w.i + 1) ≠ '{'.toUInt8 then _
    else _) = _
  simp only [hsize, hb, true_and]

theorem walks_date_plain (hpattern : pattern = pre ++ 'd'.toUInt8 :: b :: format)
    (hi : w.i = pre.length) (hstate : w.scan.parsingString = false) (hb : b ≠ '{'.toUInt8)
    (hnext : Walks behind pattern (b :: format) turns (w.directive 'd'.toUInt8).read) :
    Walks behind pattern ('d'.toUInt8 :: b :: format) (turns + 1) w := by
  have hsize : w.i + 1 < pattern.length := by
    rw [hi, hpattern, List.length_append, List.length_cons, List.length_cons]
    omega
  apply hnext.turn
  · rw [scanLoop_date_cons hpattern hi hstate, if_pos hb]
  · exact scan_date_plain hstate hb
  · exact (inside_read hsize.le).trans (inside_directive (by omega) _)
  · rw [Scan.pieces_directive hstate, piecesDirective, if_pos rfl, piecesDate_cons hb]
    exact getLast?_date_cons fun _ => pieces_cons_ne_nil b format

/-- A `%d` with a brace.  The loop goes on behind the format, if that is closed. -/
theorem walks_date_format (hpattern : pattern = pre ++ 'd'.toUInt8 :: '{'.toUInt8 :: format)
    (hi : w.i = pre.length) (hstate : w.scan.parsingString = false) (hturns : format.length < turns)
    (hnext : ∀ (pre' after : Bytes) (w' : Walk), pattern = pre' ++ after → w'.i = pre'.length →
      after.length ≤ format.length → Walks behind pattern after turns w') :
    Walks behind pattern ('d'.toUInt8 :: '{'.toUInt8 :: format) (turns + 1) w := by
  have hbrace : pattern = (pre ++ ['d'.toUInt8, '{'.toUInt8]) ++ format := by
    rw [hpattern, List.append_assoc]
    rfl
  have hsize : pattern.length = w.i + 2 + format.length := by
    rw [hi, hbrace, List.length_append, List.length_append]
    rfl
  obtain ⟨v, hv⟩ : ∃ v, v = (w.directive 'd'.toUInt8).read.next := ⟨_, rfl⟩
  have hvi : v.i = (pre ++ ['d'.toUInt8, '{'.toUInt8]).length := by
    rw [hv, List.length_append, ← hi]
    rfl
  obtain ⟨w', hformat, hi', hscan, hinside⟩ :=
    formatLoop_eq behind hbrace hvi hturns
  have hrun : scanLoop behind pattern (turns + 1) w =
      closeBrace behind pattern (scanLoop behind pattern turns) w' := by
    rw [scanLoop_date_cons hpattern hi hstate, if_neg (not_not.mpr rfl), ← hv, hformat,
      Option.bind_some]
  have hw'scan : w'.scan = { w.scan.directive 'd'.toUInt8 with
      dataFormat := w.scan.dataFormat ++ format.takeWhile (· ≠ '}'.toUInt8) } := by
    rw [hscan, hv]
    rfl
  have hw'in : w'.Inside pattern.length ↔ w.Inside pattern.length := by
    rw [hinside, hv]
    exact (inside_read (show w.i + 1 ≤ _ by omega)).trans (inside_directive (by omega) _)
  have hpieces : w.scan.pieces ('d'.toUInt8 :: '{'.toUInt8 :: format) = piecesFormat [] format := by
    rw [Scan.pieces_directive hstate, piecesDirective, if_pos rfl, piecesDate, if_pos rfl]
  have hsplit := List.takeWhile_append_dropWhile (p := (· ≠ '}'.toUInt8)) (l := format)
  cases hclose : format.dropWhile (· ≠ '}'.toUInt8) with
  | nil =>
    -- the zero behind the pattern is no brace
    rw [hclose, List.append_nil] at hsplit
    have hend : w'.i = pattern.length := by rw [hi', hsplit, hbrace]
    rw [closeBrace, hend, charAt_size, if_pos (by decide)] at hrun
    refine ⟨_, hrun, ?_, ?_⟩
    · rw [scan_date_unclosed hstate hclose, hw'scan]
    · rw [hpieces, piecesFormat_open hclose]
      refine ((inside_read hend.le).trans hw'in).trans (and_iff_left ?_).symm
      simp [DateLast]
  | cons x after =>
    have hx : x = '}'.toUInt8 := by
      have hhead := List.head?_dropWhile_not (· ≠ '}'.toUInt8) format
      rw [hclose] at hhead
      simpa using hhead
    rw [hclose] at hsplit
    have hafter : pattern = (pre ++ ['d'.toUInt8, '{'.toUInt8] ++
        format.takeWhile (· ≠ '}'.toUInt8)) ++ x :: after := by
      rw [List.append_assoc, hsplit]
      exact hbrace
    have hlt : w'.i < pattern.length := lt_length hafter hi'
    have hshort : after.length ≤ format.length := by
      have h := congrArg List.length hsplit
      rw [List.length_append, List.length_cons] at h
      omega
    rw [closeBrace, charAt_cons hafter hi', if_neg (not_not.mpr hx)] at hrun
    have hwalks : Walks behind pattern after turns w'.read.next := by
      apply hnext _ after _ (hafter.trans (List.append_cons _ _ _)) _ hshort
      rw [List.length_append, ← hi']
      rfl
    apply hwalks.turn hrun _ ((inside_read hlt.le).trans hw'in) _
    · rw [scan_date_closed hstate hclose]
      exact congrArg _ hw'scan.symm
    · have hstring : w'.scan.parsingString = true := by rw [hw'scan]; rfl
      rw [hpieces, piecesFormat_close hclose]
      refine (getLast?_date_cons (by simp)).trans ?_
      exact iff_of_eq (congrArg DateLast (Scan.pieces_text hstring after).symm)

end

/-! ## The whole loop -/

/-- **The loop follows `scan`.** -/
theorem scanLoop_walks (behind : UInt8) (hpattern : pattern = pre ++ rest) (hi : w.i = pre.length)
    (hturns : rest.length < turns) : Walks behind pattern rest turns w := by
  -- on the turns, with any walk: a format moves the index by more than one turn does
  induction turns generalizing pre rest w with
  | zero => exact absurd hturns (Nat.not_lt_zero _)
  | succ turns ih =>
    cases rest with
    | nil =>
      have hend : ¬ w.i < pattern.length := by simp [hi, hpattern]
      refine ⟨w, ?_, ?_, ?_⟩
      · rw [scanLoop, if_neg hend]
      · rw [LogFormatter.scan.eq_def]
      · refine (and_iff_left ?_).symm
        rw [Scan.pieces]
        split
        · exact nofun
        · exact nofun
    | cons c rest =>
      have hlt : w.i < pattern.length := lt_length hpattern hi
      have hc : charAt behind pattern w.i = c := charAt_cons hpattern hi
      have hpre : pattern = (pre ++ [c]) ++ rest := by rw [hpattern, List.append_assoc]; rfl
      have hnext (w' : Walk) (hi' : w'.i = w.i + 1) : Walks behind pattern rest turns w' := by
        apply ih hpre _ (Nat.lt_of_succ_lt_succ hturns)
        rw [hi', hi, List.length_append]
        rfl
      have hread : w.read.Inside pattern.length ↔ w.Inside pattern.length := inside_read hlt.le
      cases hstate : w.scan.parsingString with
      | true =>
        by_cases hpercent : c = '%'.toUInt8
        · apply (hnext (Walk.next { w.read with
            scan := { w.scan.flush with parsingString := false } }) rfl).turn _ _ hread _
          · rw [scanLoop, if_pos hlt, hc]
            exact (if_pos hpercent).trans (if_pos hstate)
          · rw [LogFormatter.scan.eq_def]
            exact (if_pos hpercent).trans (if_pos hstate)
          · rw [Scan.pieces_text hstate, Scan.pieces_directive (by rfl), pieces, if_pos hpercent]
        · apply (hnext (Walk.next { w.read with
            scan := { w.scan with tmp := w.scan.tmp ++ [c] } }) rfl).turn _ _ hread _
          · rw [scanLoop, if_pos hlt, hc]
            exact (if_neg hpercent).trans (if_pos hstate)
          · rw [LogFormatter.scan.eq_def]
            exact (if_neg hpercent).trans (if_pos hstate)
          · rw [Scan.pieces_text hstate, Scan.pieces_text (by exact hstate), pieces,
              if_neg hpercent]
            exact getLast?_date_cons (by simp)
      | false =>
        have hno : ¬ w.scan.parsingString = true := by simp [hstate]
        by_cases hd : c = 'd'.toUInt8
        · subst hd
          have hrest : rest.length < turns := Nat.lt_of_succ_lt_succ hturns
          cases rest with
          | nil => exact walks_date_end hpattern hi hstate hrest
          | cons b format =>
            have hformat : format.length < turns := Nat.lt_of_succ_lt hrest
            by_cases hb : b = '{'.toUInt8
            · subst hb
              apply walks_date_format hpattern hi hstate hformat
              intro pre' after w' hpattern' hi' hle
              exact ih hpattern' hi' (Nat.lt_of_le_of_lt hle hformat)
            · exact walks_date_plain hpattern hi hstate hb (hnext _ rfl)
        · -- another directive, the `%` of `%%` among them
          apply (hnext (Walk.next { w.read with scan := w.scan.directive c }) rfl).turn _
            (scan_directive hstate hd) hread _
          · rw [scanLoop, if_pos hlt, hc]
            by_cases hpercent : c = '%'.toUInt8
            · exact (if_pos hpercent).trans (if_neg hno)
            · exact ((if_neg hpercent).trans (if_neg hno)).trans (if_pos hd)
          · rw [Scan.pieces_directive hstate, Scan.pieces_text (by rfl), piecesDirective, if_neg hd]
            exact getLast?_date_cons (by simp)

end

/-- The loop ends, with the result of `scan`. -/
theorem scanLoop_eq_scan (behind : UInt8) {pattern : Bytes} {turns : Nat}
    (h : pattern.length < turns) :
    ∃ w, scanLoop behind pattern turns {} = some w ∧
      w.scan = LogFormatter.scan behind pattern {} := by
  obtain ⟨w, hrun, hscan, -⟩ :=
    scanLoop_walks behind (w := {}) (List.nil_append pattern).symm rfl h
  exact ⟨w, hrun, hscan⟩

/-- On the pattern of a formatter the loop ends, and every `m_pattern[i]` on the way has an index up
to the size. -/
def IndexSafe (behind : UInt8) (pattern : Bytes) : Prop :=
  ∀ turns > pattern.length, ∃ w, scanLoop behind pattern turns {} = some w ∧
    w.Inside pattern.length

/-- **The scanner stays inside its pattern unless that ends in `%d`.** -/
theorem indexSafe_iff (behind : UInt8) (pattern : Bytes) :
    IndexSafe behind pattern ↔ ¬ EndsInDate pattern := by
  have hstart : Walk.Inside pattern.length {} := fun i hi => absurd hi List.not_mem_nil
  have hwalks {turns : Nat} (h : pattern.length < turns) : Walks behind pattern pattern turns {} :=
    scanLoop_walks behind (List.nil_append pattern).symm rfl h
  constructor
  · intro hsafe
    obtain ⟨w, hrun, hinside⟩ := hsafe _ (Nat.lt_succ_self _)
    obtain ⟨w', hrun', -, hiff⟩ := hwalks (Nat.lt_succ_self _)
    rw [hrun] at hrun'
    cases hrun'
    exact (hiff.mp hinside).2
  · intro hend turns hturns
    obtain ⟨w, hrun, -, hiff⟩ := hwalks hturns
    exact ⟨w, hrun, hiff.mpr ⟨hstart, hend⟩⟩

/-- For `%d` the indices are 0, 1 and 3. -/
theorem not_indexSafe_date :
    (scanLoop 0 (ascii "%d") 3 {}).map Walk.reads = some [0, 1, 3] ∧
      ¬ IndexSafe 0 (ascii "%d") := by
  have hreads : (scanLoop 0 (ascii "%d") 3 {}).map Walk.reads = some [0, 1, 3] := by decide
  refine ⟨hreads, ?_⟩
  intro hsafe
  obtain ⟨w, hrun, hinside⟩ := hsafe 3 (by decide)
  rw [hrun] at hreads
  have h := hinside 3 (by rw [Option.some_inj.mp hreads]; decide)
  revert h
  decide

end Luwu.LogFormatter
