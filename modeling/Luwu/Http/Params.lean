import Luwu.Ext.StringUtil
import Luwu.Http.Message
import Luwu.Lib.Text

/-!
# Parameters and cookies

`initQueryParam`, `initBodyParam` and `initCookies` read pairs of names and values with the macro
`PARSE_PARAM`.  Its scan looks for an `=`, and only then for the separator behind it, so that a
piece without an `=` becomes a part of the name in the next piece that has one.
-/

namespace Luwu.Http

open Lib StdString StringUtil

/-! ## The scan -/

/-- `PARSE_PARAM` from the offset `pos` on: the pairs that it inserts, in this order. -/
def parseParam (str : Bytes) (flag : UInt8) (trim : Bytes → Bytes) (pos : Nat) :
    List (Bytes × Bytes) :=
  match _hkey : find str '='.toUInt8 pos with
  | none => []
  | some key =>
    let name := urlDecode (trim (substr str pos (key - pos))) true
    match _hend : find str flag key with
    | none => [(name, urlDecode (str.drop (key + 1)) true)]
    | some next =>
      (name, urlDecode (substr str (key + 1) (next - key - 1)) true) ::
        parseParam str flag trim (next + 1)
termination_by str.length - pos
decreasing_by
  have hfirst := find_bounds _hkey
  have hnext := find_bounds _hend
  omega

/-- `strcasestr (s, sub) != nullptr`. -/
def strcasestr (s sub : Bytes) : Prop := caseKey sub <:+: caseKey s

instance (s sub : Bytes) : Decidable (strcasestr s sub) := inferInstanceAs (Decidable (_ <:+: _))

/-- The third argument of `PARSE_PARAM` for cookies. -/
def trimBlanks (s : Bytes) : Bytes := trim s (ascii " \t\r\n")

namespace HttpRequest

def initQueryParam (r : HttpRequest) : HttpRequest :=
  if r.status &&& 0x1 ≠ 0 then r
  else
    { r with
      params := r.params.insertAll (parseParam r.query '&'.toUInt8 id 0)
      status := r.status ||| 0x1 }

/-- The body holds parameters, as its type says. -/
def IsForm (r : HttpRequest) : Prop :=
  strcasestr (getHeader r.headers (ascii "content-type"))
    (ascii "application/x-www-form-urlencoded")

instance (r : HttpRequest) : Decidable r.IsForm := inferInstanceAs (Decidable (strcasestr _ _))

def initBodyParam (r : HttpRequest) : HttpRequest :=
  if r.status &&& 0x2 ≠ 0 then r
  else if ¬ r.IsForm then { r with status := r.status ||| 0x2 }
  else
    { r with
      params := r.params.insertAll (parseParam r.body '&'.toUInt8 id 0)
      status := r.status ||| 0x2 }

def initCookies (r : HttpRequest) : HttpRequest :=
  if r.status &&& 0x4 ≠ 0 then r
  else
    let cookie := getHeader r.headers (ascii "cookie")
    if cookie = [] then { r with status := r.status ||| 0x4 }
    else
      { r with
        cookies := r.cookies.insertAll (parseParam cookie ';'.toUInt8 trimBlanks 0)
        status := r.status ||| 0x4 }

end HttpRequest

/-! ## The pieces of a text -/

/-- The pair in a piece that has an `=`. -/
def pairOf (trim : Bytes → Bytes) (piece : Bytes) : Bytes × Bytes :=
  (urlDecode (trim (piece.takeWhile (· ≠ '='.toUInt8))) true,
    urlDecode (piece.dropWhile (· ≠ '='.toUInt8)).tail true)

/-- The pairs that some pieces contribute: one for each piece that has an `=`. -/
def pairsOf (trim : Bytes → Bytes) (pieces : List Bytes) : List (Bytes × Bytes) :=
  (pieces.filter fun piece => decide ('='.toUInt8 ∈ piece)).map (pairOf trim)

/-- The pairs that the pieces of a text contribute. -/
def contributed (str : Bytes) (sep : UInt8) (trim : Bytes → Bytes) : List (Bytes × Bytes) :=
  pairsOf trim (str.splitOn sep)

/-- What the scan makes of the pieces: those without an `=` are put in front of the next one that
has one.  `pending` is what has been read of it. -/
def joined (sep : UInt8) (trim : Bytes → Bytes) (pending : Bytes) :
    List Bytes → List (Bytes × Bytes)
  | [] => []
  | piece :: pieces =>
    if '='.toUInt8 ∈ piece then pairOf trim (pending ++ piece) :: joined sep trim [] pieces
    else joined sep trim (pending ++ piece ++ [sep]) pieces

section

variable {sep : UInt8} {trim : Bytes → Bytes} {str pre pending name value : Bytes}

theorem not_mem_of_mem_splitOn {piece : Bytes} (h : piece ∈ str.splitOn sep) : sep ∉ piece := by
  induction str generalizing piece with
  | nil =>
    rw [List.splitOn_nil, List.mem_singleton] at h
    rw [h]
    exact List.not_mem_nil
  | cons c str ih =>
    rw [List.splitOn_cons_eq_if_modifyHead] at h
    split at h
    · rcases List.mem_cons.mp h with rfl | h
      · exact List.not_mem_nil
      · exact ih h
    · next hc =>
      cases hsplit : str.splitOn sep with
      | nil => exact absurd hsplit (List.splitOn_ne_nil sep str)
      | cons first pieces =>
        rw [hsplit] at h ih
        rcases List.mem_cons.mp h with rfl | h
        · refine List.not_mem_cons_of_ne_of_not_mem ?_ (ih List.mem_cons_self)
          rintro rfl
          exact hc (beq_self_eq_true _)
        · exact ih (List.mem_cons_of_mem _ h)

theorem pairOf_append (hname : '='.toUInt8 ∉ name) :
    pairOf trim (name ++ '='.toUInt8 :: value) =
      (urlDecode (trim name) true, urlDecode value true) := by
  have htake : (name ++ '='.toUInt8 :: value).takeWhile (· ≠ '='.toUInt8) = name := by
    rw [List.takeWhile_append_of_pos, List.takeWhile_cons_of_neg (by simp), List.append_nil]
    intro c hc
    simpa using fun h : c = '='.toUInt8 => hname (h ▸ hc)
  have hdrop : (name ++ '='.toUInt8 :: value).dropWhile (· ≠ '='.toUInt8) =
      '='.toUInt8 :: value := by
    rw [List.dropWhile_append_of_pos, List.dropWhile_cons_of_neg (by simp)]
    intro c hc
    simpa using fun h : c = '='.toUInt8 => hname (h ▸ hc)
  rw [pairOf, htake, hdrop]
  rfl

section

variable {pos key next : Nat}

theorem parseParam_none (hkey : find str '='.toUInt8 pos = none) :
    parseParam str sep trim pos = [] := by
  rw [parseParam]
  split
  · rfl
  · next h => cases hkey.symm.trans h

theorem parseParam_nil : parseParam [] sep trim 0 = [] := parseParam_none rfl

theorem parseParam_end (hkey : find str '='.toUInt8 pos = some key)
    (hend : find str sep key = none) :
    parseParam str sep trim pos =
      [(urlDecode (trim (substr str pos (key - pos))) true,
        urlDecode (str.drop (key + 1)) true)] := by
  rw [parseParam]
  split
  · next h => cases hkey.symm.trans h
  · next key' h =>
    cases hkey.symm.trans h
    split
    · rfl
    · next h => cases hend.symm.trans h

theorem parseParam_next (hkey : find str '='.toUInt8 pos = some key)
    (hend : find str sep key = some next) :
    parseParam str sep trim pos =
      (urlDecode (trim (substr str pos (key - pos))) true,
        urlDecode (substr str (key + 1) (next - key - 1)) true) ::
        parseParam str sep trim (next + 1) := by
  rw [parseParam]
  split
  · next h => cases hkey.symm.trans h
  · next key' h =>
    cases hkey.symm.trans h
    split
    · next h => cases hend.symm.trans h
    · next next' h =>
      cases hend.symm.trans h
      rfl

end

/-- A piece with an `=`, when it is the last one. -/
theorem parseParam_last (hsep : sep ≠ '='.toUInt8) (hname : '='.toUInt8 ∉ name)
    (hvalue : sep ∉ value) (hstr : str = pre ++ (name ++ '='.toUInt8 :: value)) :
    parseParam str sep trim pre.length = [pairOf trim (name ++ '='.toUInt8 :: value)] := by
  have hkey := find_some hstr hname
  have hend : find str sep (pre.length + name.length) = none := by
    rw [← List.length_append]
    refine find_none (x := '='.toUInt8 :: value) (by rw [hstr, List.append_assoc]) ?_
    exact List.not_mem_cons_of_ne_of_not_mem hsep hvalue
  have hdrop : str.drop (pre.length + name.length + 1) = value := by
    rw [hstr, Nat.add_assoc, ← List.drop_drop, List.drop_left, ← List.drop_drop, List.drop_left]
    rfl
  rw [parseParam_end hkey hend, pairOf_append hname, Nat.add_sub_cancel_left, substr_append hstr,
    hdrop]

/-- A piece with an `=`, with further text behind its separator. -/
theorem parseParam_piece (hsep : sep ≠ '='.toUInt8) (hname : '='.toUInt8 ∉ name)
    (hvalue : sep ∉ value) {rest : Bytes}
    (hstr : str = pre ++ ((name ++ '='.toUInt8 :: value) ++ sep :: rest)) :
    parseParam str sep trim pre.length =
      pairOf trim (name ++ '='.toUInt8 :: value) ::
        parseParam str sep trim (pre ++ (name ++ '='.toUInt8 :: value) ++ [sep]).length := by
  have hkey : find str '='.toUInt8 pre.length = some (pre.length + name.length) := by
    refine find_some (r := value ++ sep :: rest) ?_ hname
    rw [hstr, List.append_assoc]
    rfl
  -- the separator is searched for from the `=` on
  have hend : find str sep (pre.length + name.length) =
      some (pre.length + name.length + (value.length + 1)) := by
    rw [← List.length_append]
    refine find_some (x := '='.toUInt8 :: value) (r := rest) ?_ ?_
    · rw [hstr]
      simp only [List.append_assoc]
    · exact List.not_mem_cons_of_ne_of_not_mem hsep hvalue
  have hvaluePart : substr str (pre.length + name.length + 1) value.length = value := by
    have hlen : pre.length + name.length + 1 = (pre ++ (name ++ ['='.toUInt8])).length := by
      simp [Nat.add_assoc]
    rw [hlen]
    refine substr_append (r := sep :: rest) ?_
    rw [hstr]
    simp only [List.append_assoc, List.cons_append, List.nil_append]
  have hnamePart : substr str pre.length name.length = name := by
    refine substr_append (r := '='.toUInt8 :: value ++ sep :: rest) ?_
    rw [hstr]
    simp only [List.append_assoc]
  have hcount : pre.length + name.length + (value.length + 1) - (pre.length + name.length) - 1 =
      value.length := by omega
  have hnext : pre.length + name.length + (value.length + 1) + 1 =
      (pre ++ (name ++ '='.toUInt8 :: value) ++ [sep]).length := by
    simp only [List.length_append, List.length_cons, List.length_nil]
    omega
  rw [parseParam_next hkey hend, pairOf_append hname, Nat.add_sub_cancel_left, hnamePart, hcount,
    hvaluePart, hnext]

/-- The scan of pieces, of which `pending` is the part that has been read. -/
theorem parseParam_pieces (hsep : sep ≠ '='.toUInt8) {pieces : List Bytes}
    (hpieces : ∀ piece ∈ pieces, sep ∉ piece) (hpending : '='.toUInt8 ∉ pending)
    (hstr : str = pre ++ (pending ++ [sep].intercalate pieces)) :
    parseParam str sep trim pre.length = joined sep trim pending pieces := by
  induction pieces generalizing pre pending with
  | nil =>
    rw [List.intercalate_nil, List.append_nil] at hstr
    exact parseParam_none (find_none hstr hpending)
  | cons piece pieces ih =>
    have hpiece := hpieces piece List.mem_cons_self
    have hrest : ∀ piece ∈ pieces, sep ∉ piece :=
      fun piece h => hpieces piece (List.mem_cons_of_mem _ h)
    rw [joined]
    by_cases heq : '='.toUInt8 ∈ piece
    · rw [if_pos heq]
      obtain ⟨name, value, rfl, hname⟩ := List.eq_append_cons_of_mem heq
      have hvalue : sep ∉ value := fun h =>
        hpiece (List.mem_append_right _ (List.mem_cons_of_mem _ h))
      have hfull : '='.toUInt8 ∉ pending ++ name := by
        rw [List.mem_append]
        exact not_or.mpr ⟨hpending, hname⟩
      rw [← List.append_assoc]
      cases pieces with
      | nil =>
        rw [List.intercalate_singleton] at hstr
        refine parseParam_last hsep hfull hvalue ?_
        rw [hstr]
        simp only [List.append_assoc]
      | cons next pieces =>
        rw [List.intercalate_cons_cons] at hstr
        have hsplit : str = pre ++ ((pending ++ name ++ '='.toUInt8 :: value) ++
            sep :: [sep].intercalate (next :: pieces)) := by
          rw [hstr]
          simp only [List.append_assoc, List.cons_append, List.nil_append]
        rw [parseParam_piece hsep hfull hvalue hsplit]
        refine congrArg _ (ih hrest List.not_mem_nil ?_)
        rw [hsplit]
        simp only [List.append_assoc, List.cons_append, List.nil_append]
    · -- nothing is inserted, and the next `=` counts for this piece too
      rw [if_neg heq]
      cases pieces with
      | nil =>
        rw [List.intercalate_singleton] at hstr
        refine (parseParam_none (find_none hstr ?_)).trans rfl
        rw [List.mem_append]
        exact not_or.mpr ⟨hpending, heq⟩
      | cons next pieces =>
        rw [List.intercalate_cons_cons] at hstr
        refine ih hrest ?_ ?_
        · simp only [List.mem_append, List.mem_singleton]
          exact not_or.mpr ⟨not_or.mpr ⟨hpending, heq⟩, Ne.symm hsep⟩
        · rw [hstr]
          simp only [List.append_assoc]

/-- **What the scan makes of a text.** -/
theorem parseParam_eq (trim : Bytes → Bytes) (hsep : sep ≠ '='.toUInt8) (str : Bytes) :
    parseParam str sep trim 0 = joined sep trim [] (str.splitOn sep) := by
  have hstr : str = [] ++ ([] ++ [sep].intercalate (str.splitOn sep)) :=
    (List.intercalate_splitOn sep).symm
  exact parseParam_pieces hsep (fun _ => not_mem_of_mem_splitOn) List.not_mem_nil hstr

end

/-! ## Separators -/

/-- A separator that stays where it is when a name is trimmed and decoded. -/
structure Separator (sep : UInt8) (trim : Bytes → Bytes) : Prop where
  ne_equals : sep ≠ '='.toUInt8
  ne_plus : sep ≠ '+'.toUInt8
  ne_percent : sep ≠ '%'.toUInt8
  not_digit : isxdigit sep = false
  ne_zero : sep ≠ 0
  lower : ∀ c, tolower c = sep ↔ c = sep
  /-- What is in front of the separator stands in front of all of the name behind it. -/
  split : ∀ p name, ∃ p' name', trim (p ++ sep :: name) = p' ++ sep :: name' ∧
    (urlDecode (trim name) true).length ≤ (urlDecode name' true).length

theorem separator_ampersand : Separator '&'.toUInt8 id where
  ne_equals := by decide
  ne_plus := by decide
  ne_percent := by decide
  not_digit := by decide
  ne_zero := by decide
  lower := by
    apply forall_byte
    decide +kernel
  split p name := ⟨p, name, rfl, le_rfl⟩

theorem separator_semicolon : Separator ';'.toUInt8 trimBlanks where
  ne_equals := by decide
  ne_plus := by decide
  ne_percent := by decide
  not_digit := by decide
  ne_zero := by decide
  lower := by
    apply forall_byte
    decide +kernel
  split p name := by
    obtain ⟨blanks, hblanks, hname⟩ := trim_suffix (ascii " \t\r\n") name
    refine ⟨_, _, trim_append_cons (by decide) p name, ?_⟩
    rw [hname, urlDecode_append_plain]
    · rw [List.length_append]
      exact Nat.le_add_left _ _
    · intro c hc
      have hplain : ∀ c ∈ ascii " \t\r\n", c ≠ '+'.toUInt8 ∧ c ≠ '%'.toUInt8 := by decide
      exact hplain c (hblanks c hc)

/-! ## Pieces without an `=` -/

/-- The pieces without an `=` stand behind all that have one. -/
def InFront (str : Bytes) (sep : UInt8) : Prop :=
  (str.splitOn sep).Pairwise fun a b => '='.toUInt8 ∈ b → '='.toUInt8 ∈ a

instance (str : Bytes) (sep : UInt8) : Decidable (InFront str sep) :=
  inferInstanceAs (Decidable (List.Pairwise _ _))

section

variable {sep : UInt8} {trim : Bytes → Bytes} {str pending name value : Bytes} {pieces : List Bytes}

theorem pairsOf_cons {piece : Bytes} (h : '='.toUInt8 ∈ piece) :
    pairsOf trim (piece :: pieces) = pairOf trim piece :: pairsOf trim pieces := by
  rw [pairsOf, List.filter_cons_of_pos (by simpa using h), List.map_cons]
  rfl

theorem pairsOf_cons_skip {piece : Bytes} (h : '='.toUInt8 ∉ piece) :
    pairsOf trim (piece :: pieces) = pairsOf trim pieces := by
  rw [pairsOf, List.filter_cons_of_neg (by simpa using h)]
  rfl

/-- A name with a piece in front of it. -/
theorem Separator.pairOf_ne (h : Separator sep trim) (value : Bytes) (hname : '='.toUInt8 ∉ name)
    (hpending : '='.toUInt8 ∉ pending) :
    sep ∈ (pairOf trim (pending ++ [sep] ++ (name ++ '='.toUInt8 :: value))).1 ∧
      pairOf trim (pending ++ [sep] ++ (name ++ '='.toUInt8 :: value)) ≠
        pairOf trim (name ++ '='.toUInt8 :: value) := by
  have hfull : '='.toUInt8 ∉ pending ++ [sep] ++ name := by
    simp only [List.mem_append, List.mem_singleton]
    exact not_or.mpr ⟨not_or.mpr ⟨hpending, Ne.symm h.ne_equals⟩, hname⟩
  rw [← List.append_assoc, pairOf_append hfull, pairOf_append hname]
  obtain ⟨p', name', htrim, hlen⟩ := h.split pending name
  have hkey : urlDecode (trim (pending ++ [sep] ++ name)) true =
      urlDecode p' true ++ sep :: urlDecode name' true := by
    rw [List.append_assoc]
    refine (congrArg (urlDecode · true) htrim).trans ?_
    rw [urlDecode_append h.not_digit, urlDecode_cons h.ne_plus h.ne_percent]
  constructor
  · show sep ∈ urlDecode _ true
    rw [hkey]
    exact List.mem_append_right _ List.mem_cons_self
  · -- it is longer than the name alone
    intro heq
    have hlength := congrArg (fun e : Bytes × Bytes => e.1.length) heq
    simp only [hkey, List.length_append, List.length_cons] at hlength
    omega

/-- Behind a piece without an `=`, the first piece that has one is read together with it. -/
theorem joined_pending (trim : Bytes → Bytes) (hpending : '='.toUInt8 ∉ pending)
    (hsep : sep ≠ '='.toUInt8) (h : ∃ piece ∈ pieces, '='.toUInt8 ∈ piece) :
    ∃ p name value rest rest', '='.toUInt8 ∉ p ∧ '='.toUInt8 ∉ name ∧
      joined sep trim (pending ++ [sep]) pieces =
        pairOf trim (p ++ [sep] ++ (name ++ '='.toUInt8 :: value)) :: rest ∧
      pairsOf trim pieces = pairOf trim (name ++ '='.toUInt8 :: value) :: rest' := by
  induction pieces generalizing pending with
  | nil => simp at h
  | cons piece pieces ih =>
    by_cases heq : '='.toUInt8 ∈ piece
    · obtain ⟨name, value, rfl, hname⟩ := List.eq_append_cons_of_mem heq
      exact ⟨pending, name, value, _, _, hpending, hname, if_pos heq, pairsOf_cons heq⟩
    · have hlater : ∃ piece ∈ pieces, '='.toUInt8 ∈ piece := by
        obtain ⟨piece', hmem, heq'⟩ := h
        rcases List.mem_cons.mp hmem with rfl | hmem
        · exact absurd heq' heq
        · exact ⟨piece', hmem, heq'⟩
      have hnext : '='.toUInt8 ∉ pending ++ [sep] ++ piece := by
        simp only [List.mem_append, List.mem_singleton]
        exact not_or.mpr ⟨not_or.mpr ⟨hpending, Ne.symm hsep⟩, heq⟩
      rw [joined, if_neg heq, pairsOf_cons_skip heq]
      exact ih hnext hlater

theorem joined_of_none (sep : UInt8) (trim : Bytes → Bytes) (pending : Bytes)
    (h : ∀ piece ∈ pieces, '='.toUInt8 ∉ piece) :
    joined sep trim pending pieces = [] ∧ pairsOf trim pieces = [] := by
  constructor
  · induction pieces generalizing pending with
    | nil => rfl
    | cons piece pieces ih =>
      rw [joined, if_neg (h piece List.mem_cons_self)]
      exact ih _ fun piece hp => h piece (List.mem_cons_of_mem _ hp)
  · rw [pairsOf, List.map_eq_nil_iff, List.filter_eq_nil_iff]
    intro piece hp
    simpa using h piece hp

/-- The scan and the pieces agree as far as the `=` come first; behind that a name has a separator
in it. -/
theorem Separator.joined_iff (h : Separator sep trim) (pieces : List Bytes) :
    (pieces.Pairwise (fun a b => '='.toUInt8 ∈ b → '='.toUInt8 ∈ a) →
      joined sep trim [] pieces = pairsOf trim pieces) ∧
    (¬ pieces.Pairwise (fun a b => '='.toUInt8 ∈ b → '='.toUInt8 ∈ a) →
      joined sep trim [] pieces ≠ pairsOf trim pieces ∧
        ∃ e ∈ joined sep trim [] pieces, sep ∈ e.1) := by
  induction pieces with
  | nil => exact ⟨fun _ => rfl, fun hno => absurd .nil hno⟩
  | cons piece pieces ih =>
    rw [List.pairwise_cons]
    by_cases heq : '='.toUInt8 ∈ piece
    · rw [joined, if_pos heq, pairsOf_cons heq, List.nil_append]
      constructor
      · intro hpair
        rw [ih.1 hpair.2]
      · intro hno
        obtain ⟨hne, e, he, hmem⟩ := ih.2 fun hpair => hno ⟨fun _ _ _ => heq, hpair⟩
        refine ⟨?_, e, List.mem_cons_of_mem _ he, hmem⟩
        intro hsame
        exact hne (List.cons.inj hsame).2
    · rw [joined, if_neg heq, pairsOf_cons_skip heq, List.nil_append]
      by_cases hlater : ∃ piece ∈ pieces, '='.toUInt8 ∈ piece
      · -- the piece becomes a part of the name in a later one
        obtain ⟨p, name, value, rest, rest', hp, hname, hjoined, hpieces⟩ :=
          joined_pending trim heq h.ne_equals hlater
        obtain ⟨hmem, hne⟩ := h.pairOf_ne value hname hp
        rw [hjoined, hpieces]
        constructor
        · rintro ⟨hall, -⟩
          obtain ⟨piece', hmem', heq'⟩ := hlater
          exact absurd (hall piece' hmem' heq') heq
        · intro _
          exact ⟨fun hsame => hne (List.cons.inj hsame).1, _, List.mem_cons_self, hmem⟩
      · have hnone : ∀ piece ∈ pieces, '='.toUInt8 ∉ piece := fun piece hp heq' =>
          hlater ⟨piece, hp, heq'⟩
        obtain ⟨hjoined, hfilter⟩ := joined_of_none sep trim (piece ++ [sep]) hnone
        constructor
        · intro _
          rw [hjoined, hfilter]
        · intro hno
          refine absurd ⟨fun b hb heq' => absurd heq' (hnone b hb), ?_⟩ hno
          exact List.pairwise_of_forall_mem_list fun a _ b hb heq' => absurd heq' (hnone b hb)

end

/-! ## The maps -/

/-- The map of a text is made of the pairs that its pieces contribute, and of nothing else. -/
structure ReadsPieces (str : Bytes) (sep : UInt8) (trim : Bytes → Bytes) (got : MapType) :
    Prop where
  pairs : parseParam str sep trim 0 = contributed str sep trim
  map : got = OrderedMap.empty.insertAll (contributed str sep trim)

/-- No name of a piece has a separator in it, escaped in the text, and no name that is read a
zero. -/
structure PlainNames (str : Bytes) (sep : UInt8) (trim : Bytes → Bytes) : Prop where
  separator : ∀ e ∈ contributed str sep trim, sep ∉ e.1
  zero : ∀ e ∈ parseParam str sep trim 0, (0 : UInt8) ∉ e.1

section

variable {sep : UInt8} {trim : Bytes → Bytes} {s str : Bytes}

/-- A name without a zero is compared whole. -/
theorem caseKey_eq (hzero : (0 : UInt8) ∉ s) : caseKey s = (s.map tolower).map UInt8.toNat := by
  have hall : s.takeWhile (· ≠ 0) = s := by
    rw [List.takeWhile_eq_self_iff]
    intro c hc
    simpa using fun h0 : c = 0 => hzero (h0 ▸ hc)
  rw [caseKey, hall, List.map_map]
  rfl

theorem mem_caseKey_of_mem (hlower : tolower sep = sep) (hzero : (0 : UInt8) ∉ s)
    (hmem : sep ∈ s) : sep.toNat ∈ caseKey s := by
  rw [caseKey_eq hzero]
  exact List.mem_map_of_mem (List.mem_map.mpr ⟨sep, hmem, hlower⟩)

theorem not_mem_caseKey (hlower : ∀ c, tolower c = sep → c = sep) (hmem : sep ∉ s) :
    sep.toNat ∉ caseKey s := by
  intro hkey
  obtain ⟨c, hc, heq⟩ := List.mem_map.mp hkey
  have hsep := hlower c (UInt8.toNat_inj.mp heq)
  exact hmem (hsep ▸ (List.takeWhile_sublist _).subset hc)

theorem Separator.reads_iff (h : Separator sep trim) (str : Bytes) :
    (ReadsPieces str sep trim (OrderedMap.empty.insertAll (parseParam str sep trim 0)) ↔
      InFront str sep) ∧
    (PlainNames str sep trim →
      (OrderedMap.empty.insertAll (parseParam str sep trim 0) =
          (OrderedMap.empty.insertAll (contributed str sep trim) : MapType) ↔
            InFront str sep)) := by
  have hscan := parseParam_eq trim h.ne_equals str
  obtain ⟨hsame, hother⟩ := h.joined_iff (str.splitOn sep)
  rw [← hscan] at hsame hother
  refine ⟨⟨?_, ?_⟩, ?_⟩
  · intro hreads
    by_contra hno
    exact (hother hno).1 hreads.pairs
  · intro hfront
    have hpairs : parseParam str sep trim 0 = contributed str sep trim := hsame hfront
    exact ⟨hpairs, congrArg _ hpairs⟩
  · intro hplain
    constructor
    · intro hmaps
      by_contra hno
      -- a name with a separator in it is in the one map and not in the other
      obtain ⟨-, e, he, hmem⟩ := hother hno
      have hkey := mem_caseKey_of_mem ((h.lower sep).mpr rfl) (hplain.zero e he) hmem
      have hfound : ((OrderedMap.empty.insertAll (parseParam str sep trim 0) : MapType).find
          e.1).isSome := by
        rw [OrderedMap.find_insertAll, OrderedMap.find_empty, Option.none_or, Option.isSome_map,
          List.find?_isSome]
        exact ⟨e, he, by simp⟩
      rw [hmaps, OrderedMap.find_insertAll, OrderedMap.find_empty, Option.none_or,
        Option.isSome_map, List.find?_isSome] at hfound
      obtain ⟨e', he', heq⟩ := hfound
      have hsame : caseKey e'.1 = caseKey e.1 := by simpa using heq
      exact not_mem_caseKey (fun c => (h.lower c).mp) (hplain.separator e' he') (hsame ▸ hkey)
    · intro hfront
      exact congrArg _ (hsame hfront)

end

/-- **Parameters and cookies are read piece by piece just where no piece without an `=` stands in
front of one that has an `=`.**  The maps alone tell the difference unless escapes hide a separator
or a zero in a name. -/
theorem params_read_iff (r : HttpRequest) (hstatus : r.status = 0) (hparams : r.params = .empty)
    (hcookies : r.cookies = .empty) :
    ((ReadsPieces r.query '&'.toUInt8 id r.initQueryParam.params ↔ InFront r.query '&'.toUInt8) ∧
      (PlainNames r.query '&'.toUInt8 id →
        (r.initQueryParam.params =
            OrderedMap.empty.insertAll (contributed r.query '&'.toUInt8 id) ↔
          InFront r.query '&'.toUInt8))) ∧
    (r.IsForm →
      (ReadsPieces r.body '&'.toUInt8 id r.initBodyParam.params ↔ InFront r.body '&'.toUInt8) ∧
      (PlainNames r.body '&'.toUInt8 id →
        (r.initBodyParam.params =
            OrderedMap.empty.insertAll (contributed r.body '&'.toUInt8 id) ↔
          InFront r.body '&'.toUInt8))) ∧
    let cookie := getHeader r.headers (ascii "cookie")
    (ReadsPieces cookie ';'.toUInt8 trimBlanks r.initCookies.cookies ↔
        InFront cookie ';'.toUInt8) ∧
      (PlainNames cookie ';'.toUInt8 trimBlanks →
        (r.initCookies.cookies =
            OrderedMap.empty.insertAll (contributed cookie ';'.toUInt8 trimBlanks) ↔
          InFront cookie ';'.toUInt8)) := by
  have hquery : r.initQueryParam.params =
      OrderedMap.empty.insertAll (parseParam r.query '&'.toUInt8 id 0) := by
    rw [HttpRequest.initQueryParam, if_neg (by rw [hstatus]; decide), hparams]
  have hbody (hform : r.IsForm) : r.initBodyParam.params =
      OrderedMap.empty.insertAll (parseParam r.body '&'.toUInt8 id 0) := by
    rw [HttpRequest.initBodyParam, if_neg (by rw [hstatus]; decide), if_neg (not_not.mpr hform),
      hparams]
  have hcookie : r.initCookies.cookies = OrderedMap.empty.insertAll
      (parseParam (getHeader r.headers (ascii "cookie")) ';'.toUInt8 trimBlanks 0) := by
    rw [HttpRequest.initCookies, if_neg (by rw [hstatus]; decide)]
    dsimp only
    -- without a cookie header nothing is parsed, which comes to the same
    split
    · next hnil =>
      rw [hnil, parseParam_nil]
      exact hcookies
    · rw [hcookies]
  refine ⟨?_, ?_, ?_⟩
  · rw [hquery]
    exact separator_ampersand.reads_iff r.query
  · intro hform
    rw [hbody hform]
    exact separator_ampersand.reads_iff r.body
  · dsimp only
    rw [hcookie]
    exact separator_semicolon.reads_iff _

/-- The query of the test of requests, without its escapes. -/
theorem params_read_test :
    ReadsPieces (ascii "q=url&oq=url&ie=UTF-8") '&'.toUInt8 id
      ({ query := ascii "q=url&oq=url&ie=UTF-8" } : HttpRequest).initQueryParam.params :=
  (params_read_iff { query := ascii "q=url&oq=url&ie=UTF-8" } rfl rfl rfl).1.1.mpr (by decide)

/-- A piece without an `=` in front of `b=1`: the parameter is not `b`. -/
theorem params_joined :
    ¬ ∀ r : HttpRequest, r.status = 0 → r.params = .empty →
      r.initQueryParam.params =
        OrderedMap.empty.insertAll (contributed r.query '&'.toUInt8 id) := by
  intro h
  have hplain : PlainNames (ascii "a&b=1") '&'.toUInt8 id := by
    refine ⟨by decide, ?_⟩
    rw [parseParam_eq id (by decide)]
    decide
  have hfront := ((separator_ampersand.reads_iff (ascii "a&b=1")).2 hplain).mp
    (h { query := ascii "a&b=1" } rfl rfl)
  exact absurd hfront (by decide)

end Luwu.Http
