import Mathlib.Data.List.TakeWhile
import Luwu.Log.Formatter

/-!
# What a formatter prints

The items that `init` makes of a pattern, compared with its pieces: which patterns are reported as
wrong, what the others print, and with which format each `%d` is printed.
-/

namespace Luwu.LogFormatter

open Lib StdString

/-! ## The second pass -/

/-- The table has an entry for the piece, if it is a directive. -/
def Piece.ok : Piece → Bool
  | directive c => (formatItems.lookup c).isSome
  | _ => true

/-- The item of a piece. -/
def Piece.item (dataFormat : Bytes) : Piece → FormatItem
  | literal c => .string [c]
  | directive c =>
    if c = 'd'.toUInt8 then .time (timeFormat dataFormat)
    else ((formatItems.lookup c).map fun new => new [c]).getD (.string [])
  | _ => .string []

section

variable {β : Type} {g : FormatItem → List β}

/-- What the items come to, piece by piece, up to the first directive without an entry. -/
theorem build_flatMap (hg : ∀ str, g (.string str) = str.flatMap fun c => g (.string [c]))
    (dataFormat : Bytes) (patterns : List Pattern) :
    (build dataFormat patterns).items.flatMap g =
      ((patterns.flatMap Pattern.read).takeWhile Piece.ok).flatMap
        fun p => g (p.item dataFormat) := by
  induction patterns with
  | nil => rfl
  | cons v patterns ih =>
    rw [List.flatMap_cons]
    cases v with
    | string str =>
      have hall : ∀ p ∈ str.map Piece.literal, p.ok = true := by
        intro p hp
        obtain ⟨c, -, rfl⟩ := List.mem_map.mp hp
        rfl
      rw [Pattern.read, List.takeWhile_append_of_pos hall, List.flatMap_append, ← ih,
        List.flatMap_map]
      show g (.string str) ++ _ = _
      rw [hg]
      rfl
    | item c =>
      rw [Pattern.read, List.singleton_append, build]
      by_cases hd : c = 'd'.toUInt8
      · have hok : (Piece.directive c).ok = true := by
          rw [hd]
          decide
        -- `%d` takes the format that all of them share
        rw [if_pos hd, List.takeWhile_cons_of_pos hok, List.flatMap_cons, ← ih, Piece.item,
          if_pos hd]
        rfl
      · rw [if_neg hd]
        cases hlookup : formatItems.lookup c with
        | none =>
          rw [List.takeWhile_cons_of_neg (by simp [Piece.ok, hlookup])]
          rfl
        | some new =>
          rw [List.takeWhile_cons_of_pos (by simp [Piece.ok, hlookup]), List.flatMap_cons, ← ih,
            Piece.item, if_neg hd, hlookup]
          rfl

theorem build_error (dataFormat : Bytes) (patterns : List Pattern) :
    (build dataFormat patterns).error = true ↔
      ∃ p ∈ patterns.flatMap Pattern.read, p.ok = false := by
  induction patterns with
  | nil => simp [build]
  | cons v patterns ih =>
    rw [List.flatMap_cons]
    cases v with
    | string str =>
      show (build dataFormat patterns).error = true ↔ _
      rw [ih]
      constructor
      · rintro ⟨p, hp, hok⟩
        exact ⟨p, List.mem_append_right _ hp, hok⟩
      · rintro ⟨p, hp, hok⟩
        rcases List.mem_append.mp hp with hp | hp
        · obtain ⟨c, -, rfl⟩ := List.mem_map.mp hp
          cases hok
        · exact ⟨p, hp, hok⟩
    | item c =>
      rw [Pattern.read, List.singleton_append, List.exists_mem_cons_iff, build]
      -- `%d` is dealt with before the table is looked at
      by_cases hd : c = 'd'.toUInt8
      · have hok : (Piece.directive c).ok = true := by
          rw [hd]
          decide
        rw [if_pos hd, hok]
        simpa [Items.push] using ih
      · rw [if_neg hd]
        cases hlookup : formatItems.lookup c with
        | none => simp [Piece.ok, hlookup]
        | some new => simpa [Items.push, Piece.ok, hlookup] using ih

end

/-! ## `init` -/

/-- What the scanner leaves in `patterns`. -/
def entries (pattern : Bytes) : List Piece := (pieces pattern).flatMap Piece.entry

/-- What the scanner leaves in `data_format`. -/
def dataFormat (pattern : Bytes) : Bytes := (pieces pattern).flatMap Piece.dataFormat

section

variable {behind : UInt8} {pattern : Bytes}

theorem init_of_fails (h : Fails behind (pieces pattern)) :
    init behind pattern = { error := true } := by
  have hscan := (scan_reads behind pattern).text (s := {}) rfl
  exact if_pos (hscan.error.mpr (.inr h))

/-- The second pass goes over what the first one has left. -/
theorem init_of_not_fails (h : ¬ Fails behind (pieces pattern)) :
    ∃ patterns, patterns.flatMap Pattern.read = entries pattern ∧
      init behind pattern = build (dataFormat pattern) patterns := by
  have hscan := (scan_reads behind pattern).text (s := {}) rfl
  have herror : (scan behind pattern {}).error ≠ true := by
    rw [Ne, hscan.error]
    exact not_or.mpr ⟨by simp, h⟩
  refine ⟨(scan behind pattern {}).flush.patterns, ?_, ?_⟩
  · have hread := (read_flush (scan behind pattern {})).trans hscan.read
    simpa [Scan.read, Scan.flush, entries] using hread
  · rw [init, if_neg herror, hscan.dataFormat]
    rfl

theorem init_error_iff : (init behind pattern).error = true ↔
    Fails behind (pieces pattern) ∨ ∃ p ∈ entries pattern, p.ok = false := by
  by_cases h : Fails behind (pieces pattern)
  · rw [init_of_fails h]
    exact iff_of_true rfl (.inl h)
  · obtain ⟨patterns, hread, hinit⟩ := init_of_not_fails h
    rw [hinit, build_error, hread, or_iff_right h]

end

/-! ## Directives -/

mutual

theorem d_not_mem_pieces : ∀ rest, .directive 'd'.toUInt8 ∉ pieces rest
  | [] => List.not_mem_nil
  | c :: rest => by
    rw [pieces]
    split
    · exact d_not_mem_piecesDirective rest
    · exact List.not_mem_cons_of_ne_of_not_mem (by simp) (d_not_mem_pieces rest)

theorem d_not_mem_piecesDirective : ∀ rest, .directive 'd'.toUInt8 ∉ piecesDirective rest
  | [] => by simp [piecesDirective]
  | c :: rest => by
    rw [piecesDirective]
    split
    · exact d_not_mem_piecesDate rest
    · next hc =>
      refine List.not_mem_cons_of_ne_of_not_mem ?_ (d_not_mem_pieces rest)
      intro h
      exact hc (Piece.directive.inj h).symm

theorem d_not_mem_piecesDate : ∀ rest, .directive 'd'.toUInt8 ∉ piecesDate rest
  | [] => by simp [piecesDate]
  | c :: rest => by
    rw [piecesDate]
    split
    · exact d_not_mem_piecesFormat rest []
    · split
      · exact List.not_mem_cons_of_ne_of_not_mem (by simp) (d_not_mem_piecesDirective rest)
      · refine List.not_mem_cons_of_ne_of_not_mem (by simp) ?_
        exact List.not_mem_cons_of_ne_of_not_mem (by simp) (d_not_mem_pieces rest)

theorem d_not_mem_piecesFormat :
    ∀ rest format, .directive 'd'.toUInt8 ∉ piecesFormat format rest
  | [], format => by simp [piecesFormat]
  | c :: rest, format => by
    rw [piecesFormat]
    split
    · exact List.not_mem_cons_of_ne_of_not_mem (by simp) (d_not_mem_pieces rest)
    · exact d_not_mem_piecesFormat rest _

end

/-- The letters that are directives, without `d`. -/
def letters : Bytes := ascii "mpcrfltbnNT"

/-- What the letters stand for. -/
def fields (event : LogEvent) : List (UInt8 × Bytes) :=
  [('m'.toUInt8, event.content), ('p'.toUInt8, event.level.toString),
    ('c'.toUInt8, event.loggerName), ('r'.toUInt8, Http.decimal event.elapse.toNat),
    ('f'.toUInt8, event.file), ('l'.toUInt8, decimalInt event.line.toInt),
    ('t'.toUInt8, Http.decimal event.threadId.toNat),
    ('b'.toUInt8, Http.decimal event.fiberId.toNat), ('n'.toUInt8, event.threadName),
    ('N'.toUInt8, ascii "\n"), ('T'.toUInt8, ascii "\t")]

/-- What a piece other than a `%d` is to print. -/
def Piece.render (event : LogEvent) : Piece → Bytes
  | literal c => [c]
  | directive c => if c = '%'.toUInt8 then [c] else ((fields event).lookup c).getD []
  | _ => []

theorem ok_directive {c : UInt8} (hd : c ≠ 'd'.toUInt8) :
    (Piece.directive c).ok = true ↔ c ∈ letters := by
  revert c
  apply forall_byte
  decide +kernel

theorem percent_not_mem_letters : '%'.toUInt8 ∉ letters := by decide

/-- The item of a letter prints its field. -/
theorem format_item (strftime : Bytes → UInt64 → Bytes) (unset : Bytes) (event : LogEvent)
    (dataFormat : Bytes) {c : UInt8} (hc : c ∈ letters) :
    ((Piece.directive c).item dataFormat).format strftime unset event =
      (Piece.directive c).render event := by
  have hcases : c ∈ ['m'.toUInt8, 'p'.toUInt8, 'c'.toUInt8, 'r'.toUInt8, 'f'.toUInt8, 'l'.toUInt8,
      't'.toUInt8, 'b'.toUInt8, 'n'.toUInt8, 'N'.toUInt8, 'T'.toUInt8] := hc
  simp only [List.mem_cons, List.not_mem_nil, or_false] at hcases
  rcases hcases with rfl | rfl | rfl | rfl | rfl | rfl | rfl | rfl | rfl | rfl | rfl <;> rfl

/-! ## Patterns without a `%d` -/

def Piece.isDate : Piece → Bool
  | date _ => true
  | unclosed _ => true
  | _ => false

/-- The pattern has no `%d`. -/
def NoDate (pattern : Bytes) : Prop := ∀ p ∈ pieces pattern, p.isDate = false

instance (pattern : Bytes) : Decidable (NoDate pattern) :=
  inferInstanceAs (Decidable (∀ p ∈ pieces pattern, p.isDate = false))

/-- Some `%` is followed by a character that is neither `%` nor a letter of a directive. -/
def Unknown (pattern : Bytes) : Prop :=
  ∃ c, .directive c ∈ pieces pattern ∧ c ≠ '%'.toUInt8 ∧ c ∉ letters

/-- There is a `%%`. -/
def Escaped (pattern : Bytes) : Prop := .directive '%'.toUInt8 ∈ pieces pattern

/-- The pattern ends in a `%` that belongs to no pair. -/
def Dangling (pattern : Bytes) : Prop := .dangling ∈ pieces pattern

instance (pattern : Bytes) : Decidable (Escaped pattern) := inferInstanceAs (Decidable (_ ∈ _))

instance (pattern : Bytes) : Decidable (Dangling pattern) := inferInstanceAs (Decidable (_ ∈ _))

/-- An error is reported for wrong patterns, and the others are printed piece by piece. -/
structure Follows (strftime : Bytes → UInt64 → Bytes) (behind : UInt8) (pattern : Bytes) :
    Prop where
  error : (init behind pattern).error = true ↔ Unknown pattern ∨ Dangling pattern
  text : ¬ (Unknown pattern ∨ Dangling pattern) → ∀ unset event,
    format strftime unset (init behind pattern) event =
      (pieces pattern).flatMap (Piece.render event)

section

variable {pattern : Bytes}

theorem NoDate.not_fails (h : NoDate pattern) (behind : UInt8) :
    ¬ Fails behind (pieces pattern) := by
  rintro (⟨format, hmem⟩ | ⟨hlast, -⟩)
  · cases h _ hmem
  · cases h _ (List.mem_of_getLast? hlast)

/-- **Without a `%d` an error is reported just for directives that the table lacks**, which are the
unknown ones and the `%` of `%%`. -/
theorem NoDate.error_iff (h : NoDate pattern) (behind : UInt8) :
    (init behind pattern).error = true ↔ Unknown pattern ∨ Escaped pattern := by
  rw [init_error_iff, or_iff_right (h.not_fails behind)]
  constructor
  · rintro ⟨p, hp, hok⟩
    obtain ⟨q, hq, hentry⟩ := List.mem_flatMap.mp hp
    cases q with
    | literal c =>
      rw [List.mem_singleton.mp hentry] at hok
      cases hok
    | directive c =>
      rw [List.mem_singleton.mp hentry] at hok
      have hd : c ≠ 'd'.toUInt8 := fun hc => d_not_mem_pieces pattern (hc ▸ hq)
      by_cases hc : c = '%'.toUInt8
      -- `%%` has no entry in the table
      · right
        rw [Escaped, ← hc]
        exact hq
      · refine .inl ⟨c, hq, hc, fun hmem => ?_⟩
        rw [(ok_directive hd).mpr hmem] at hok
        cases hok
    | date format => cases h _ hq
    | unclosed format => cases h _ hq
    | dangling => cases hentry
  · have hbad (c : UInt8) (hc : .directive c ∈ pieces pattern) (hno : c ∉ letters) :
        ∃ p ∈ entries pattern, p.ok = false := by
      have hd : c ≠ 'd'.toUInt8 := fun heq => d_not_mem_pieces pattern (heq ▸ hc)
      refine ⟨_, List.mem_flatMap.mpr ⟨_, hc, List.mem_singleton_self _⟩, ?_⟩
      rw [← Bool.not_eq_true, ok_directive hd]
      exact hno
    rintro (⟨c, hc, -, hno⟩ | hpercent)
    · exact hbad c hc hno
    · exact hbad _ hpercent percent_not_mem_letters

/-- A pattern with known directives only is printed piece by piece. -/
theorem NoDate.format_eq (h : NoDate pattern) (hknown : ¬ (Unknown pattern ∨ Escaped pattern))
    (behind : UInt8) (strftime : Bytes → UInt64 → Bytes) (unset : Bytes) (event : LogEvent) :
    format strftime unset (init behind pattern) event =
      (pieces pattern).flatMap (Piece.render event) := by
  obtain ⟨patterns, hread, hinit⟩ := init_of_not_fails (h.not_fails behind)
  have hall : ∀ p ∈ entries pattern, p.ok = true := by
    intro p hp
    by_contra hok
    exact hknown ((h.error_iff behind).mp (init_error_iff.mpr (.inr ⟨p, hp, by simpa using hok⟩)))
  have hstring : ∀ str : Bytes, FormatItem.format strftime unset event (.string str) =
      str.flatMap fun c => FormatItem.format strftime unset event (.string [c]) := fun str =>
    (List.flatMap_singleton' str).symm
  rw [format, hinit, build_flatMap hstring, hread, List.takeWhile_eq_self_iff.mpr hall, entries,
    List.flatMap_assoc]
  refine List.flatMap_congr fun p hp => ?_
  cases p with
  | literal c => rfl
  | directive c =>
    have hd : c ≠ 'd'.toUInt8 := fun hc => d_not_mem_pieces pattern (hc ▸ hp)
    have hc : c ∈ letters :=
      (ok_directive hd).mp (hall _ (List.mem_flatMap.mpr ⟨_, hp, List.mem_singleton_self _⟩))
    rw [← format_item strftime unset event (dataFormat pattern) hc]
    exact List.append_nil _
  | date format => cases h _ hp
  | unclosed format => cases h _ hp
  | dangling => rfl

/-- **A pattern without a `%d` is treated right just when it has an unknown directive, or has a `%%`
if and only if it ends in a single `%`.** -/
theorem pattern_follows_iff (strftime : Bytes → UInt64 → Bytes) (behind : UInt8) (pattern : Bytes)
    (h : NoDate pattern) :
    Follows strftime behind pattern ↔ Unknown pattern ∨ (Escaped pattern ↔ Dangling pattern) := by
  have herror := h.error_iff behind
  constructor
  · intro hfollows
    have hsame := herror.symm.trans hfollows.error
    by_cases hunknown : Unknown pattern
    · exact .inl hunknown
    · rw [or_iff_right hunknown, or_iff_right hunknown] at hsame
      exact .inr hsame
  · intro hcond
    constructor
    case error =>
      rw [herror]
      rcases hcond with hunknown | hsame
      · exact iff_of_true (.inl hunknown) (.inl hunknown)
      · rw [hsame]
    case text =>
      intro hgood unset event
      refine h.format_eq ?_ behind strftime unset event
      rintro (hunknown | hescaped)
      · exact hgood (.inl hunknown)
      · rcases hcond with hunknown | hsame
        · exact hgood (.inl hunknown)
        · exact hgood (.inr (hsame.mp hescaped))

end

/-- Three directives between literal text. -/
theorem pattern_follows_message : Follows (fun _ _ => []) 0 (ascii "[%p] %m%N") :=
  (pattern_follows_iff _ 0 (ascii "[%p] %m%N") (by decide +kernel)).mpr (.inr (by decide +kernel))

/-- A percent sign that is escaped. -/
theorem percent_rejected :
    (init 0 (ascii "100%%")).error = true ∧ ¬ Follows (fun _ _ => []) 0 (ascii "100%%") := by
  have hdate : NoDate (ascii "100%%") := by decide +kernel
  have hpieces : pieces (ascii "100%%") =
      [.literal '1'.toUInt8, .literal '0'.toUInt8, .literal '0'.toUInt8,
        .directive '%'.toUInt8] := by
    decide +kernel
  have herror : (init 0 (ascii "100%%")).error = true :=
    (hdate.error_iff 0).mpr (.inr (by decide +kernel))
  refine ⟨herror, fun h => ?_⟩
  rcases h.error.mp herror with ⟨c, hc, hne, -⟩ | hdangling
  · rw [hpieces] at hc
    simp only [List.mem_cons, reduceCtorEq, List.not_mem_nil, or_false, false_or,
      Piece.directive.injEq] at hc
    exact hne hc
  · exact absurd hdangling (by decide +kernel)

/-! ## The formats of `%d` -/

/-- The formats that an item passes to `strftime`. -/
def FormatItem.times : FormatItem → List Bytes
  | time format => [format]
  | _ => []

/-- The format that a piece is to be printed with: its own, or the default. -/
def Piece.expected : Piece → List Bytes
  | date none => [defaultTime]
  | date (some format) => [if format = [] then defaultTime else format]
  | _ => []

/-- The formats in the braces of the `%d`, empty for those without. -/
def Piece.formats : Piece → List Bytes
  | date format => [format.getD []]
  | _ => []

def formats (pattern : Bytes) : List Bytes := (pieces pattern).flatMap Piece.formats

def Piece.isUnclosed : Piece → Bool
  | unclosed _ => true
  | _ => false

/-- Every brace behind a `%d` is closed. -/
def BracesClosed (pattern : Bytes) : Prop := ∀ p ∈ pieces pattern, p.isUnclosed = false

instance (pattern : Bytes) : Decidable (BracesClosed pattern) :=
  inferInstanceAs (Decidable (∀ p ∈ pieces pattern, p.isUnclosed = false))

theorem BracesClosed.not_mem {pattern : Bytes} (h : BracesClosed pattern) (format : Bytes) :
    .unclosed format ∉ pieces pattern := fun hmem => Bool.noConfusion (h _ hmem)

/-- The last piece is a `%d` without braces. -/
def EndsInDate (pattern : Bytes) : Prop := (pieces pattern).getLast? = some (.date none)

/-- In front of a `%d` every directive has an entry in the table. -/
def KnownInFront (pattern : Bytes) : Prop :=
  (pieces pattern).Pairwise fun a b => b.isDate = true → a.ok = true

/-- There is one `%d`, or all formats are empty but one at most, which is the default. -/
def OneFormat (fs : List Bytes) : Prop :=
  fs.length ≤ 1 ∨ fs.filter (· ≠ []) = [] ∨ fs.filter (· ≠ []) = [defaultTime]

instance (pattern : Bytes) : Decidable (EndsInDate pattern) := inferInstanceAs (Decidable (_ = _))

instance (pattern : Bytes) : Decidable (KnownInFront pattern) :=
  inferInstanceAs (Decidable (List.Pairwise _ _))

instance (fs : List Bytes) : Decidable (OneFormat fs) := inferInstanceAs (Decidable (_ ∨ _))

/-- The only items with a format are those of `%d`. -/
theorem times_item (dataFormat : Bytes) (p : Piece) :
    (p.item dataFormat).times =
      if p = .directive 'd'.toUInt8 then [timeFormat dataFormat] else [] := by
  cases p with
  | directive c =>
    have hother : ∀ c, c ≠ 'd'.toUInt8 →
        (((formatItems.lookup c).map fun (new : Bytes → FormatItem) => new [c]).getD
          (FormatItem.string [])).times = [] := by
      apply forall_byte
      decide +kernel
    simp only [Piece.item, Piece.directive.injEq]
    split
    · rfl
    · next hc => exact hother c hc
  | _ => rfl

theorem expected_date (format : Option Bytes) :
    (Piece.date format).expected = [timeFormat (format.getD [])] := by
  cases format <;> rfl

theorem expected_eq_nil_iff {ps : List Piece} (hopen : ∀ format, .unclosed format ∉ ps) :
    ps.flatMap Piece.expected = [] ↔ ∀ p ∈ ps, p.isDate = false := by
  rw [List.flatMap_eq_nil_iff]
  refine forall₂_congr fun p hp => ?_
  cases p with
  | date format => simp [expected_date, Piece.isDate]
  | unclosed format => exact absurd hp (hopen format)
  | _ => exact iff_of_true rfl rfl

/-- The formats of the items, if the one of them all is `timeFormat f`: these are the expected ones
when no directive stops the second pass in front of a `%d`, and each `%d` is to have this format. -/
theorem times_eq_iff (f : Bytes) {ps : List Piece} (hopen : ∀ format, .unclosed format ∉ ps)
    (hd : .directive 'd'.toUInt8 ∉ ps) :
    ((ps.flatMap Piece.entry).takeWhile Piece.ok).flatMap
        (fun p => if p = .directive 'd'.toUInt8 then [timeFormat f] else []) =
      ps.flatMap Piece.expected ↔
    ps.Pairwise (fun a b => b.isDate = true → a.ok = true) ∧
      ∀ g ∈ ps.flatMap Piece.formats, timeFormat g = timeFormat f := by
  induction ps with
  | nil => simp
  | cons p ps ih =>
    have hrest : ∀ format, .unclosed format ∉ ps :=
      fun format h => hopen format (List.mem_cons_of_mem _ h)
    have hnext := ih hrest fun h => hd (List.mem_cons_of_mem _ h)
    rw [List.flatMap_cons, List.flatMap_cons, List.flatMap_cons, List.pairwise_cons]
    cases p with
    | literal c =>
      rw [Piece.entry, List.singleton_append, List.takeWhile_cons_of_pos rfl, List.flatMap_cons,
        if_neg (by simp)]
      simpa [Piece.expected, Piece.formats, Piece.ok] using hnext
    | directive c =>
      rw [Piece.entry, List.singleton_append]
      by_cases hok : (Piece.directive c).ok = true
      · have hne : Piece.directive c ≠ .directive 'd'.toUInt8 := by
          intro heq
          rw [heq] at hd
          exact hd List.mem_cons_self
        rw [List.takeWhile_cons_of_pos hok, List.flatMap_cons, if_neg hne]
        simpa [Piece.expected, Piece.formats, hok] using hnext
      · -- the second pass ends here
        rw [List.takeWhile_cons_of_neg hok]
        show [] = ps.flatMap Piece.expected ↔ _
        rw [eq_comm, expected_eq_nil_iff hrest]
        constructor
        · intro hnone
          refine ⟨⟨fun b hb hdate => ?_, ?_⟩, fun g hg => ?_⟩
          · rw [hnone b hb] at hdate
            cases hdate
          · refine List.pairwise_of_forall_mem_list fun a _ b hb hdate => ?_
            rw [hnone b hb] at hdate
            cases hdate
          · obtain ⟨q, hq, hg⟩ := List.mem_flatMap.mp hg
            cases q with
            | date format => cases hnone _ hq
            | _ => cases hg
        · intro h b hb
          rw [← Bool.not_eq_true]
          exact fun hdate => hok (h.1.1 b hb hdate)
    | date format =>
      have hok : (Piece.directive 'd'.toUInt8).ok = true := by decide
      rw [Piece.entry, List.singleton_append, List.takeWhile_cons_of_pos hok, List.flatMap_cons,
        if_pos rfl, expected_date, List.singleton_append, List.singleton_append,
        List.cons.injEq, hnext]
      show _ ↔ _ ∧ ∀ g ∈ format.getD [] :: ps.flatMap Piece.formats, _
      rw [List.forall_mem_cons]
      constructor
      · rintro ⟨hhead, hpair, hall⟩
        exact ⟨⟨fun _ _ _ => rfl, hpair⟩, hhead.symm, hall⟩
      · rintro ⟨⟨-, hpair⟩, hhead, hall⟩
        exact ⟨hhead.symm, hpair, hall⟩
    | unclosed format => exact absurd List.mem_cons_self (hopen format)
    | dangling => simpa [Piece.entry, Piece.expected, Piece.formats, Piece.ok] using hnext

/-- All formats are the one that is collected. -/
theorem oneFormat_iff (fs : List Bytes) :
    (∀ g ∈ fs, timeFormat g = timeFormat fs.flatten) ↔ OneFormat fs := by
  have hflatten : fs.flatten = (fs.filter (· ≠ [])).flatten := List.flatten_filter_ne_nil.symm
  have hfilter (g : Bytes) : g ∈ fs.filter (· ≠ []) ↔ g ∈ fs ∧ g ≠ [] := by simp
  have hall : fs.length ≤ 1 → ∀ g ∈ fs, g = fs.flatten := by
    intro hlen g hg
    match fs, hlen, hg with
    | [f], _, hg => simpa using hg
  unfold OneFormat
  cases hcase : fs.filter (· ≠ []) with
  | nil =>
    rw [hcase] at hflatten hfilter
    refine iff_of_true (fun g hg => ?_) (.inr (.inl rfl))
    have hg : g = [] := by
      by_contra hne
      cases (hfilter g).mpr ⟨hg, hne⟩
    rw [hg, hflatten]
    rfl
  | cons x rest =>
    rw [hcase] at hflatten hfilter
    obtain ⟨hx, hne⟩ := (hfilter x).mp List.mem_cons_self
    cases rest with
    | nil =>
      have hflat : fs.flatten = x := by rw [hflatten, List.flatten_singleton]
      rw [hflat]
      constructor
      · intro h
        by_cases hempty : [] ∈ fs
        · -- a `%d` without a format of its own
          right
          right
          have hdefault := h [] hempty
          rw [timeFormat, if_pos rfl, timeFormat, if_neg hne] at hdefault
          rw [hdefault]
        · left
          have hself : fs.filter (· ≠ []) = fs := by
            rw [List.filter_eq_self]
            intro g hg
            simpa using fun h0 : g = [] => hempty (h0 ▸ hg)
          rw [← hself, hcase]
          exact le_rfl
      · intro h g hg
        by_cases hg0 : g = []
        · rcases h with hlen | hnone | hdefault
          · rw [hall hlen g hg, hflat]
          · cases hnone
          · rw [hg0, List.head_eq_of_cons_eq hdefault]
            rfl
        · have hgx : g = x := List.mem_singleton.mp ((hfilter g).mpr ⟨hg, hg0⟩)
          rw [hgx]
    | cons y rest =>
      -- the collected format is longer than the first
      refine iff_of_false (fun h => ?_) ?_
      · have hsame := h x hx
        have hflat : fs.flatten = x ++ (y ++ rest.flatten) := by
          rw [hflatten, List.flatten_cons, List.flatten_cons]
        rw [timeFormat, if_neg hne, timeFormat, if_neg (by simp [hflat, hne]), hflat,
          List.self_eq_append_right, List.append_eq_nil_iff] at hsame
        have hy := (hfilter y).mp (List.mem_cons_of_mem _ List.mem_cons_self)
        exact hy.2 hsame.1
      · rintro (hlen | hnone | hdefault)
        · have hle := List.length_filter_le (· ≠ []) fs
          rw [hcase, List.length_cons, List.length_cons] at hle
          omega
        · cases hnone
        · cases hdefault

/-- The formats with which the `%d` of a pattern are printed. -/
def times (behind : UInt8) (pattern : Bytes) : List Bytes :=
  (init behind pattern).items.flatMap FormatItem.times

/-- The formats with which they are to be printed. -/
def expected (pattern : Bytes) : List Bytes := (pieces pattern).flatMap Piece.expected

section

variable {behind : UInt8} {pattern : Bytes}

theorem times_of_fails (h : Fails behind (pieces pattern)) : times behind pattern = [] := by
  rw [times, init_of_fails h]
  rfl

theorem times_eq (h : ¬ Fails behind (pieces pattern)) :
    times behind pattern = ((entries pattern).takeWhile Piece.ok).flatMap
      fun p => if p = .directive 'd'.toUInt8 then [timeFormat (dataFormat pattern)] else [] := by
  obtain ⟨patterns, hread, hinit⟩ := init_of_not_fails h
  have hstring : ∀ str : Bytes, FormatItem.times (.string str) =
      str.flatMap fun c => FormatItem.times (.string [c]) := fun str =>
    (List.flatMap_eq_nil_iff.mpr fun _ _ => rfl).symm
  rw [times, hinit, build_flatMap hstring, hread]
  exact List.flatMap_congr fun p _ => times_item _ p

theorem dataFormat_eq (hopen : ∀ format, .unclosed format ∉ pieces pattern) :
    dataFormat pattern = (formats pattern).flatten := by
  rw [dataFormat, formats, List.flatten_eq_flatMap, List.flatMap_assoc]
  refine List.flatMap_congr fun p hp => ?_
  cases p with
  | date format => exact (List.append_nil _).symm
  | unclosed format => exact absurd hp (hopen format)
  | _ => rfl

end

/-- Each `%d` gets its own format just when the pattern does not end in a `%d` without braces, no
directive that the table lacks is in front of a `%d`, and there is one `%d`, or all of their
formats are empty but one at most, which is the default.  At the end of a pattern, a `}` in the
memory behind it makes up for the braces. -/
theorem times_eq_expected_iff (behind : UInt8) (pattern : Bytes)
    (hclosed : BracesClosed pattern) :
    times behind pattern = expected pattern ↔
      (EndsInDate pattern → behind = '}'.toUInt8) ∧ KnownInFront pattern ∧
        OneFormat (formats pattern) := by
  have hopen := hclosed.not_mem
  by_cases hfails : Fails behind (pieces pattern)
  · obtain ⟨format, hmem⟩ | ⟨hlast, hbehind⟩ := hfails
    · exact absurd hmem (hopen format)
    · refine iff_of_false (fun h => ?_) fun h => hbehind (h.1 hlast)
      -- there is a `%d`, and no item at all
      rw [times_of_fails (.inr ⟨hlast, hbehind⟩), eq_comm] at h
      have hnone := (expected_eq_nil_iff hopen).mp h _ (List.mem_of_getLast? hlast)
      cases hnone
  · have hend : EndsInDate pattern → behind = '}'.toUInt8 := by
      intro hlast
      by_contra hbehind
      exact hfails (.inr ⟨hlast, hbehind⟩)
    rw [times_eq hfails, entries, expected, times_eq_iff _ hopen (d_not_mem_pieces pattern),
      dataFormat_eq hopen]
    show KnownInFront pattern ∧ _ ↔ _
    rw [show (pieces pattern).flatMap Piece.formats = formats pattern from rfl, oneFormat_iff]
    exact ⟨fun h => ⟨hend, h⟩, And.right⟩

/-! ## The text of `%d` -/

/-- What an item for a `%d` prints, with the format that it has. -/
def FormatItem.dates (strftime : Bytes → UInt64 → Bytes) (unset : Bytes) (event : LogEvent)
    (item : FormatItem) : List (Bytes × Bytes) :=
  item.times.map fun f => (f, item.format strftime unset event)

/-- Whatever is in the memory of `buf`, the `%d` of the pattern are printed one after the other,
each as the text of its own format, or of the default. -/
def DatesRight (strftime : Bytes → UInt64 → Bytes) (behind : UInt8) (pattern : Bytes)
    (event : LogEvent) : Prop :=
  ∀ unset, (init behind pattern).items.flatMap (FormatItem.dates strftime unset event) =
    (expected pattern).map fun f => (f, strftime (cstr f) event.time)

/-- The text of every format that is to be printed fits into `buf`. -/
def DatesFit (strftime : Bytes → UInt64 → Bytes) (pattern : Bytes) (event : LogEvent) : Prop :=
  ∀ f ∈ expected pattern, (strftime (cstr f) event.time).length < timeBuffer

section

variable {strftime : Bytes → UInt64 → Bytes} {behind : UInt8} {pattern : Bytes} {event : LogEvent}

theorem dates_eq (unset : Bytes) (item : FormatItem) :
    item.dates strftime unset event = item.times.map fun f =>
      (f, (FormatItem.time f).format strftime unset event) := by
  cases item with
  | time f => rfl
  | _ => rfl

theorem flatMap_dates (unset : Bytes) :
    (init behind pattern).items.flatMap (FormatItem.dates strftime unset event) =
      (times behind pattern).map fun f =>
        (f, (FormatItem.time f).format strftime unset event) := by
  rw [times, List.map_flatMap]
  exact List.flatMap_congr fun item _ => dates_eq unset item

/-- The texts are right when the formats are, and none of them is too long. -/
theorem datesRight_iff :
    DatesRight strftime behind pattern event ↔
      times behind pattern = expected pattern ∧ DatesFit strftime pattern event := by
  constructor
  · intro h
    have hformats : times behind pattern = expected pattern := by
      have hfst := congrArg (List.map Prod.fst) (h [])
      rw [flatMap_dates, List.map_map, List.map_map] at hfst
      simpa [Function.comp_def] using hfst
    refine ⟨hformats, fun f hf => ?_⟩
    -- a text that does not fit is printed as empty, when the memory is
    have hempty := h []
    rw [flatMap_dates, hformats, List.map_inj_left] at hempty
    have htext := (Prod.mk.inj (hempty f hf)).2
    rw [FormatItem.format] at htext
    by_contra hlong
    rw [if_neg hlong] at htext
    rw [← htext] at hlong
    exact hlong (by decide)
  · rintro ⟨hformats, hfit⟩ unset
    rw [flatMap_dates, hformats, List.map_inj_left]
    intro f hf
    rw [FormatItem.format, if_pos (hfit f hf)]

end

/-- **Each `%d` is printed as the text of its own format just when the pattern does not end in a
`%d` without braces, no directive that the table lacks is in front of a `%d`, there is one `%d`, or
all of their formats are empty but one at most, which is the default, and the texts are shorter
than the buffer.** -/
theorem times_expected_iff (strftime : Bytes → UInt64 → Bytes) (behind : UInt8) (pattern : Bytes)
    (event : LogEvent) (hclosed : BracesClosed pattern) :
    DatesRight strftime behind pattern event ↔
      (EndsInDate pattern → behind = '}'.toUInt8) ∧ KnownInFront pattern ∧
        OneFormat (formats pattern) ∧ DatesFit strftime pattern event := by
  rw [datesRight_iff, times_eq_expected_iff behind pattern hclosed]
  constructor
  · rintro ⟨⟨hend, hknown, hone⟩, hfit⟩
    exact ⟨hend, hknown, hone, hfit⟩
  · rintro ⟨hend, hknown, hone, hfit⟩
    exact ⟨⟨hend, hknown, hone⟩, hfit⟩

/-- One `%d` with a format, between other directives, and a text of five bytes. -/
theorem times_expected_one :
    DatesRight (fun _ _ => ascii "12:30") 0 (ascii "%p [%d\x7b%H:%M\x7d] %m%%")
      ⟨[], .info, [], [], 1, 0, 1, 0, 0, []⟩ :=
  (times_expected_iff _ 0 _ _ (by decide +kernel)).mpr
    ⟨by decide +kernel, by decide +kernel, by decide +kernel,
      fun _ _ => show (ascii "12:30").length < timeBuffer by decide⟩

/-- Two `%d`: both are printed with the two formats in a row. -/
theorem formats_joined :
    times 0 (ascii "%d\x7b%H\x7d %d\x7b%M\x7d") = [ascii "%H%M", ascii "%H%M"] ∧
      expected (ascii "%d\x7b%H\x7d %d\x7b%M\x7d") = [ascii "%H", ascii "%M"] ∧
      ¬ DatesRight (fun f _ => f) 0 (ascii "%d\x7b%H\x7d %d\x7b%M\x7d")
        ⟨[], .info, [], [], 1, 0, 1, 0, 0, []⟩ := by
  have hfails : ¬ Fails 0 (pieces (ascii "%d\x7b%H\x7d %d\x7b%M\x7d")) := by
    have hclosed : BracesClosed (ascii "%d\x7b%H\x7d %d\x7b%M\x7d") := by decide +kernel
    have hend : ¬ EndsInDate (ascii "%d\x7b%H\x7d %d\x7b%M\x7d") := by decide +kernel
    rintro (⟨format, hmem⟩ | ⟨hlast, -⟩)
    · exact hclosed.not_mem format hmem
    · exact hend hlast
  have htimes : times 0 (ascii "%d\x7b%H\x7d %d\x7b%M\x7d") = [ascii "%H%M", ascii "%H%M"] := by
    rw [times_eq hfails]
    decide +kernel
  have hexpected : expected (ascii "%d\x7b%H\x7d %d\x7b%M\x7d") = [ascii "%H", ascii "%M"] := by
    decide +kernel
  refine ⟨htimes, hexpected, fun h => ?_⟩
  have hsame := (datesRight_iff.mp h).1
  rw [htimes, hexpected] at hsame
  exact absurd hsame (by decide)

end Luwu.LogFormatter
