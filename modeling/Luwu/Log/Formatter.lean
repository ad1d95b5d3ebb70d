import Luwu.Http.Message
import Luwu.Lib.Text
import Luwu.Log.Config

/-!
# Log patterns

`LogFormatter::init` reads a pattern in two passes.  The first one is a scanner with two states,
which collects literal text and directives; all formats of `%d` go to the one string `data_format`.
The second one makes an item of each entry.  `strftime` is a parameter, and so is what the buffer
of a `%d` holds when the text does not fit.
-/

namespace Luwu

open Lib StdString

def LogLevel.toString : LogLevel → Bytes
  | debug => ascii "DEBUG"
  | info => ascii "INFO"
  | warn => ascii "WARN"
  | error => ascii "ERROR"
  | fatal => ascii "FATAL"
  | unknown => ascii "UNKNOWN"

namespace LogFormatter

/-- The fields of `LogEvent` that are printed; `m_file` is a C string, and `m_ss` what it holds. -/
structure LogEvent where
  loggerName : Bytes
  level : LogLevel
  content : Bytes
  file : Bytes
  line : Int32
  elapse : UInt32
  threadId : UInt32
  fiberId : UInt32
  time : UInt64
  threadName : Bytes

/-- An integer as `<<` prints it. -/
def decimalInt (n : Int) : Bytes :=
  if n < 0 then '-'.toUInt8 :: Http.decimal n.natAbs else Http.decimal n.natAbs

/-! ## Items -/

inductive FormatItem where
  | message
  | level
  | loggerName
  | time (format : Bytes)
  | elapse
  | file
  | line
  | threadId
  | fiberId
  | threadName
  | newLine
  | tab
  | string (str : Bytes)
deriving DecidableEq

def defaultTime : Bytes := ascii "%Y-%m-%d %H:%M:%S"

/-- The constructor of `TimeFormatItem`: an empty format is replaced. -/
def timeFormat (format : Bytes) : Bytes := if format = [] then defaultTime else format

/-- The size of `buf` in `TimeFormatItem::format`. -/
def timeBuffer : Nat := 64

/-- What an item prints.  `strftime` is the text for a C string at a time.  When it does not fit
into `buf` with its zero, nothing is written, and the bytes `unset` are printed. -/
def FormatItem.format (strftime : Bytes → UInt64 → Bytes) (unset : Bytes) (event : LogEvent) :
    FormatItem → Bytes
  | message => event.content
  | level => event.level.toString
  | loggerName => event.loggerName
  | time format =>
    let text := strftime (cstr format) event.time
    if text.length < timeBuffer then text else unset
  | elapse => Http.decimal event.elapse.toNat
  | file => event.file
  | line => decimalInt event.line.toInt
  | threadId => Http.decimal event.threadId.toNat
  | fiberId => Http.decimal event.fiberId.toNat
  | threadName => event.threadName
  | newLine => ascii "\n"
  | tab => ascii "\t"
  | string str => str

/-- `s_format_items`. -/
def formatItems : List (UInt8 × (Bytes → FormatItem)) :=
  [('m'.toUInt8, fun _ => .message), ('p'.toUInt8, fun _ => .level),
    ('c'.toUInt8, fun _ => .loggerName), ('d'.toUInt8, fun fmt => .time (timeFormat fmt)),
    ('r'.toUInt8, fun _ => .elapse), ('f'.toUInt8, fun _ => .file), ('l'.toUInt8, fun _ => .line),
    ('t'.toUInt8, fun _ => .threadId), ('b'.toUInt8, fun _ => .fiberId),
    ('n'.toUInt8, fun _ => .threadName), ('N'.toUInt8, fun _ => .newLine),
    ('T'.toUInt8, fun _ => .tab)]

/-! ## `init` -/

/-- An entry of `patterns`: of type 0, or of type 1 with its single character. -/
inductive Pattern where
  | string (str : Bytes)
  | item (c : UInt8)
deriving DecidableEq

/-- The local variables of `init`. -/
structure Scan where
  patterns : List Pattern := []
  tmp : Bytes := []
  dataFormat : Bytes := []
  error : Bool := false
  parsingString : Bool := true
deriving DecidableEq

/-- `if (!tmp.empty()) patterns.emplace_back(0, tmp)`, and `tmp.clear()`. -/
def Scan.flush (s : Scan) : Scan :=
  { s with patterns := if s.tmp ≠ [] then s.patterns ++ [.string s.tmp] else s.patterns, tmp := [] }

def Scan.directive (s : Scan) (c : UInt8) : Scan :=
  { s with patterns := s.patterns ++ [.item c], parsingString := true }

/-- The loop over `m_pattern`, on what is left of it.  `behind` is the byte that follows the
terminating zero in memory. -/
def scan (behind : UInt8) (rest : Bytes) (s : Scan) : Scan :=
  match rest with
  | [] => s
  | c :: rest =>
    if c = '%'.toUInt8 then
      if s.parsingString then scan behind rest { s.flush with parsingString := false }
      else scan behind rest (s.directive c)
    else if s.parsingString then scan behind rest { s with tmp := s.tmp ++ [c] }
    else if c ≠ 'd'.toUInt8 then scan behind rest (s.directive c)
    else
      match rest with
      | [] =>
        -- `i` is one more than the size, and `m_pattern[i]` is read
        if behind ≠ '}'.toUInt8 then { s.directive c with error := true } else s.directive c
      | b :: format =>
        if b ≠ '{'.toUInt8 then scan behind (b :: format) (s.directive c)
        else
          let s := { s.directive c with
            dataFormat := s.dataFormat ++ format.takeWhile (· ≠ '}'.toUInt8) }
          match _hrest : format.dropWhile (· ≠ '}'.toUInt8) with
          | [] => { s with error := true }
          | _ :: rest => scan behind rest s
termination_by rest.length
decreasing_by
  all_goals simp_wf
  have hle := (List.dropWhile_suffix (l := format) (· ≠ '}'.toUInt8)).length_le
  rw [_hrest, List.length_cons] at hle
  omega

/-- `m_items` and `m_error`. -/
structure Items where
  items : List FormatItem := []
  error : Bool := false
deriving DecidableEq

def Items.push (item : FormatItem) (r : Items) : Items := { r with items := item :: r.items }

/-- The loop over `patterns`, which ends at the first directive without an entry. -/
def build (dataFormat : Bytes) : List Pattern → Items
  | [] => {}
  | .string str :: patterns => (build dataFormat patterns).push (.string str)
  | .item c :: patterns =>
    if c = 'd'.toUInt8 then (build dataFormat patterns).push (.time (timeFormat dataFormat))
    else
      match formatItems.lookup c with
      | none => { error := true }
      | some new => (build dataFormat patterns).push (new [c])

def init (behind : UInt8) (pattern : Bytes) : Items :=
  let s := scan behind pattern {}
  if s.error then { error := true } else build s.dataFormat s.flush.patterns

def format (strftime : Bytes → UInt64 → Bytes) (unset : Bytes) (r : Items) (event : LogEvent) :
    Bytes :=
  r.items.flatMap (FormatItem.format strftime unset event)

/-! ## The pieces of a pattern -/

/-- What a pattern consists of. -/
inductive Piece where
  | literal (c : UInt8)
  /-- A `%` and a character other than `d`. -/
  | directive (c : UInt8)
  /-- `%d`, with the format in the braces behind it, if there are any. -/
  | date (format : Option Bytes)
  /-- A `%d` whose brace is not closed. -/
  | unclosed (format : Bytes)
  /-- A `%` at the end. -/
  | dangling
deriving DecidableEq

mutual

/-- The pieces of a pattern. -/
def pieces : Bytes → List Piece
  | [] => []
  | c :: rest => if c = '%'.toUInt8 then piecesDirective rest else .literal c :: pieces rest

/-- The pieces behind a `%`. -/
def piecesDirective : Bytes → List Piece
  | [] => [.dangling]
  | c :: rest => if c = 'd'.toUInt8 then piecesDate rest else .directive c :: pieces rest

/-- The pieces behind a `%d`. -/
def piecesDate : Bytes → List Piece
  | [] => [.date none]
  | c :: rest =>
    if c = '{'.toUInt8 then piecesFormat [] rest
    else if c = '%'.toUInt8 then .date none :: piecesDirective rest
    else .date none :: .literal c :: pieces rest

/-- The pieces behind a `%d` with a brace, of whose format a part has been read. -/
def piecesFormat (format : Bytes) : Bytes → List Piece
  | [] => [.unclosed format]
  | c :: rest =>
    if c = '}'.toUInt8 then .date (some format) :: pieces rest
    else piecesFormat (format ++ [c]) rest

end

theorem piecesDate_cons {c : UInt8} (hc : c ≠ '{'.toUInt8) (rest : Bytes) :
    piecesDate (c :: rest) = .date none :: pieces (c :: rest) := by
  rw [piecesDate, if_neg hc, pieces]
  split <;> rfl

theorem piecesDirective_ne_nil (rest : Bytes) : piecesDirective rest ≠ [] := by
  cases rest with
  | nil => exact List.cons_ne_nil _ _
  | cons c rest =>
    rw [piecesDirective]
    split
    · cases rest with
      | nil => exact List.cons_ne_nil _ _
      | cons d rest =>
        by_cases hd : d = '{'.toUInt8
        · rw [piecesDate, if_pos hd]
          suffices h : ∀ format, piecesFormat format rest ≠ [] from h []
          induction rest with
          | nil => exact fun _ => List.cons_ne_nil _ _
          | cons e rest ih =>
            intro format
            rw [piecesFormat]
            split
            · exact List.cons_ne_nil _ _
            · exact ih _
        · rw [piecesDate_cons hd]
          exact List.cons_ne_nil _ _
    · exact List.cons_ne_nil _ _

theorem pieces_cons_ne_nil (c : UInt8) (rest : Bytes) : pieces (c :: rest) ≠ [] := by
  rw [pieces]
  split
  · exact piecesDirective_ne_nil rest
  · exact List.cons_ne_nil _ _

/-- A format ends at the first closing brace. -/
theorem piecesFormat_close {rest after : Bytes} {b : UInt8}
    (h : rest.dropWhile (· ≠ '}'.toUInt8) = b :: after) (format : Bytes) :
    piecesFormat format rest =
      .date (some (format ++ rest.takeWhile (· ≠ '}'.toUInt8))) :: pieces after := by
  induction rest generalizing format with
  | nil => cases h
  | cons c rest ih =>
    rw [piecesFormat]
    by_cases hc : c = '}'.toUInt8
    · rw [List.dropWhile_cons_of_neg (by simpa using hc)] at h
      cases h
      rw [if_pos hc, List.takeWhile_cons_of_neg (by simpa using hc), List.append_nil]
    · rw [List.dropWhile_cons_of_pos (by simpa using hc)] at h
      rw [if_neg hc, ih h, List.takeWhile_cons_of_pos (by simpa using hc), List.append_assoc]
      rfl

theorem piecesFormat_open {rest : Bytes} (h : rest.dropWhile (· ≠ '}'.toUInt8) = [])
    (format : Bytes) :
    piecesFormat format rest = [.unclosed (format ++ rest.takeWhile (· ≠ '}'.toUInt8))] := by
  induction rest generalizing format with
  | nil =>
    rw [List.takeWhile_nil, List.append_nil]
    rfl
  | cons c rest ih =>
    have hc : c ≠ '}'.toUInt8 := by
      intro hc
      rw [List.dropWhile_cons_of_neg (by simpa using hc)] at h
      cases h
    rw [List.dropWhile_cons_of_pos (by simpa using hc)] at h
    rw [piecesFormat, if_neg hc, ih h, List.takeWhile_cons_of_pos (by simpa using hc),
      List.append_assoc]
    rfl

/-! ## What the scanner collects -/

/-- The entries of `patterns` as pieces, in which `%d` is one directive among others. -/
def Pattern.read : Pattern → List Piece
  | string str => str.map .literal
  | item c => [.directive c]

/-- What has been collected. -/
def Scan.read (s : Scan) : List Piece := s.patterns.flatMap Pattern.read ++ s.tmp.map .literal

/-- What `patterns` keeps of a piece. -/
def Piece.entry : Piece → List Piece
  | literal c => [literal c]
  | directive c => [directive c]
  | date _ => [directive 'd'.toUInt8]
  | unclosed _ => [directive 'd'.toUInt8]
  | dangling => []

/-- What `data_format` gets of a piece. -/
def Piece.dataFormat : Piece → Bytes
  | date format => format.getD []
  | unclosed format => format
  | _ => []

/-- The scan ends with an error: a brace is not closed, or there is a `%d` at the end and no `}`
behind the pattern. -/
def Fails (behind : UInt8) (ps : List Piece) : Prop :=
  (∃ format, .unclosed format ∈ ps) ∨ ps.getLast? = some (.date none) ∧ behind ≠ '}'.toUInt8

/-- The scan gets from `s` to `t` over the pieces `ps`. -/
structure Scanned (behind : UInt8) (s t : Scan) (ps : List Piece) : Prop where
  read : t.read = s.read ++ ps.flatMap Piece.entry
  dataFormat : t.dataFormat = s.dataFormat ++ ps.flatMap Piece.dataFormat
  error : t.error = true ↔ s.error = true ∨ Fails behind ps

section

variable {behind : UInt8} {s s' t : Scan} {ps : List Piece}

/-- What is last does not depend on a piece in front, unless that is the last one itself. -/
theorem getLast?_date_cons {p : Piece} (h : p = .date none → ps ≠ []) :
    (p :: ps).getLast? = some (.date none) ↔ ps.getLast? = some (.date none) := by
  cases ps with
  | nil =>
    rw [List.getLast?_singleton, Option.some_inj]
    exact iff_of_false (fun hp => h hp rfl) (by simp)
  | cons q ps => rw [List.getLast?_cons_cons]

/-- One piece at the front. -/
theorem Scanned.cons {p : Piece} (h : Scanned behind s' t ps) (hread : s'.read = s.read ++ p.entry)
    (hformat : s'.dataFormat = s.dataFormat ++ p.dataFormat) (herror : s'.error = s.error)
    (hopen : ∀ format, p ≠ .unclosed format) (hlast : p = .date none → ps ≠ []) :
    Scanned behind s t (p :: ps) := by
  constructor
  case read => rw [h.read, hread, List.append_assoc, List.flatMap_cons]
  case dataFormat => rw [h.dataFormat, hformat, List.append_assoc, List.flatMap_cons]
  case error =>
    rw [h.error, herror]
    have hmem : (∃ format, Piece.unclosed format ∈ p :: ps) ↔ ∃ format, .unclosed format ∈ ps := by
      constructor
      · rintro ⟨format, hmem⟩
        exact ⟨format, (List.mem_cons.mp hmem).resolve_left (Ne.symm (hopen format))⟩
      · rintro ⟨format, hmem⟩
        exact ⟨format, List.mem_cons_of_mem _ hmem⟩
    rw [Fails, Fails, hmem, getLast?_date_cons hlast]

theorem read_flush (s : Scan) : s.flush.read = s.read := by
  unfold Scan.flush Scan.read
  dsimp only
  split
  · simp [Pattern.read]
  · next htmp => rw [not_not.mp htmp]

theorem read_directive (htmp : s.tmp = []) (c : UInt8) :
    (s.directive c).read = s.read ++ [.directive c] := by
  unfold Scan.directive Scan.read
  simp [htmp, Pattern.read]

theorem read_literal (c : UInt8) :
    ({ s with tmp := s.tmp ++ [c] } : Scan).read = s.read ++ [.literal c] := by
  unfold Scan.read
  simp

/-- From any state the scan of `rest` collects its pieces. -/
def Reads (behind : UInt8) (rest : Bytes) : Prop :=
  ∀ s : Scan, (s.parsingString = false → s.tmp = []) →
    Scanned behind s (scan behind rest s)
      (if s.parsingString then pieces rest else piecesDirective rest)

theorem Reads.text {rest : Bytes} (h : Reads behind rest) (hstate : s.parsingString = true) :
    Scanned behind s (scan behind rest s) (pieces rest) := by
  have hs := h s fun hno => by rw [hstate] at hno; cases hno
  rwa [if_pos hstate] at hs

theorem Reads.percent {rest : Bytes} (h : Reads behind rest) (hstate : s.parsingString = false)
    (htmp : s.tmp = []) : Scanned behind s (scan behind rest s) (piecesDirective rest) := by
  have hs := h s fun _ => htmp
  rwa [if_neg (by simp [hstate])] at hs

/-- The rest of the loop body for a `%d`. -/
theorem scan_date (htmp : s.tmp = []) (hstate : s.parsingString = false) (rest : Bytes)
    (ih : ∀ rest' : Bytes, rest'.length ≤ rest.length → Reads behind rest') :
    Scanned behind s (scan behind ('d'.toUInt8 :: rest) s) (piecesDate rest) := by
  have hpercent : 'd'.toUInt8 ≠ '%'.toUInt8 := by decide
  have hread := read_directive htmp 'd'.toUInt8
  rw [scan.eq_def]
  dsimp only
  rw [if_neg hpercent, if_neg (by simp [hstate]), if_neg (not_not.mpr rfl)]
  -- at the end of the pattern the byte behind it decides
  split
  · rw [piecesDate]
    split
    · next hbehind =>
      constructor
      case read => exact hread
      case dataFormat => exact (List.append_nil _).symm
      case error => simp [Fails, hbehind]
    · next hbehind =>
      constructor
      case read => exact hread
      case dataFormat => exact (List.append_nil _).symm
      case error =>
        simp only [Fails, hbehind, and_false, or_false]
        simp [Scan.directive]
  · next b format =>
    by_cases hb : b = '{'.toUInt8
    · rw [if_neg (not_not.mpr hb), piecesDate, if_pos hb]
      have hle := (List.dropWhile_suffix (l := format) (· ≠ '}'.toUInt8)).length_le
      split
      · next hclose =>
        rw [piecesFormat_open hclose, List.nil_append]
        constructor
        case read => exact hread
        case dataFormat => simp [Piece.dataFormat]
        case error => simp [Fails]
      -- the scan goes on behind the brace
      · next after hclose =>
        rw [hclose, List.length_cons] at hle
        rw [piecesFormat_close hclose, List.nil_append]
        have hafter := ih after (by rw [List.length_cons]; omega)
        exact (hafter.text rfl).cons hread rfl rfl (by simp) (by simp)
    · rw [if_pos hb, piecesDate_cons hb]
      exact ((ih (b :: format) le_rfl).text rfl).cons hread (List.append_nil _).symm rfl (by simp)
        (fun _ => pieces_cons_ne_nil b format)

/-- **The scanner reads the pattern piece by piece.** -/
theorem scan_reads (behind : UInt8) (rest : Bytes) : Reads behind rest := by
  induction hn : rest.length using Nat.strong_induction_on generalizing rest with
  | h n ih =>
    subst hn
    intro s hs
    cases rest with
    | nil =>
      rw [scan.eq_def]
      dsimp only
      split
      · constructor <;> simp [pieces, Fails]
      · constructor <;> simp [piecesDirective, Piece.entry, Piece.dataFormat, Fails]
    | cons c rest =>
      have hrest : ∀ rest' : Bytes, rest'.length ≤ rest.length → Reads behind rest' :=
        fun rest' hle => ih _ (Nat.lt_succ_of_le hle) rest' rfl
      cases hstate : s.parsingString with
      | true =>
        rw [if_pos rfl, pieces, scan.eq_def]
        dsimp only
        by_cases hc : c = '%'.toUInt8
        · rw [if_pos hc, if_pos hc, if_pos hstate]
          have hnext := (hrest rest le_rfl).percent
            (show ({ s.flush with parsingString := false } : Scan).parsingString = false from rfl)
            rfl
          exact ⟨hnext.read.trans (by rw [← read_flush s]; rfl), hnext.dataFormat, hnext.error⟩
        · rw [if_neg hc, if_neg hc, if_pos hstate]
          have hnext : Scanned behind { s with tmp := s.tmp ++ [c] } _ (pieces rest) :=
            (hrest rest le_rfl).text hstate
          exact hnext.cons (read_literal c) (List.append_nil _).symm rfl (by simp) (by simp)
      | false =>
        have htmp := hs hstate
        rw [if_neg (by simp), piecesDirective]
        by_cases hd : c = 'd'.toUInt8
        · rw [if_pos hd, hd]
          exact scan_date htmp hstate rest hrest
        · -- another directive, the `%` of `%%` among them
          have hscan : scan behind (c :: rest) s = scan behind rest (s.directive c) := by
            rw [scan.eq_def]
            dsimp only
            simp only [hstate, Bool.false_eq_true, if_false, if_pos hd, ite_self]
          rw [if_neg hd, hscan]
          exact ((hrest rest le_rfl).text rfl).cons (read_directive htmp c) (List.append_nil _).symm
            rfl (by simp) (by simp)

end

end LogFormatter

end Luwu
