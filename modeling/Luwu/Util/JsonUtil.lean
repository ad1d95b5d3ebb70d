import Luwu.Ext.StringUtil

/-!
# JSON strings

`JsonUtil::NeedEscape` and `JsonUtil::Escape`.  `Escape` gives its result the size of the escaped
text and then appends that text.  What a JSON string stands for is the relation `Decodes`.
-/

namespace Luwu.JsonUtil

open StringUtil (isxdigit xdigitChars)

/-! ## The code -/

/-- The `case` labels of the switches. -/
def labels : Bytes :=
  ['\x0c'.toUInt8, '\t'.toUInt8, '\r'.toUInt8, '\n'.toUInt8, '\x08'.toUInt8, '"'.toUInt8,
    '\\'.toUInt8]

/-- `NeedEscape`. -/
def needEscape : Bytes → Bool
  | [] => false
  | c :: v => if c ∈ labels then true else needEscape v

/-- The first loop of `Escape`. -/
def escapedSize (v : Bytes) : Nat :=
  v.foldl (fun size c => if c ∈ labels then size + 2 else size + 1) 0

/-- What the second loop appends for a character. -/
def escapedChar (c : UInt8) : Bytes :=
  if c = '\x0c'.toUInt8 then ascii "\\f"
  else if c = '\t'.toUInt8 then ascii "\\t"
  else if c = '\r'.toUInt8 then ascii "\\r"
  else if c = '\n'.toUInt8 then ascii "\\n"
  else if c = '\x08'.toUInt8 then ascii "\\b"
  else if c = '"'.toUInt8 then ascii "\\\""
  else if c = '\\'.toUInt8 then ascii "\\\\"
  else [c]

/-- `Escape`.  The text is appended to the zeros that `resize` puts in. -/
def escape (v : Bytes) : Bytes :=
  if escapedSize v = v.length then v
  else v.foldl (fun rt c => rt ++ escapedChar c) (List.replicate (escapedSize v) 0)

/-! ## JSON strings -/

/-- A character that may stand for itself. -/
def Plain (c : UInt8) : Prop := 0x20 ≤ c ∧ c ≠ '"'.toUInt8 ∧ c ≠ '\\'.toUInt8

instance (c : UInt8) : Decidable (Plain c) := inferInstanceAs (Decidable (_ ∧ _))

/-- What a character behind a backslash stands for. -/
def escapes : List (UInt8 × UInt8) :=
  [('"'.toUInt8, '"'.toUInt8), ('\\'.toUInt8, '\\'.toUInt8), ('/'.toUInt8, '/'.toUInt8),
    ('b'.toUInt8, '\x08'.toUInt8), ('f'.toUInt8, '\x0c'.toUInt8), ('n'.toUInt8, '\n'.toUInt8),
    ('r'.toUInt8, '\r'.toUInt8), ('t'.toUInt8, '\t'.toUInt8)]

/-- Four hexadecimal digits and their value. -/
structure CodeUnit (ds : Bytes) (n : Nat) : Prop where
  length : ds.length = 4
  digits : ∀ d ∈ ds, isxdigit d = true
  value : ds.foldl (fun n d => 16 * n + (xdigitChars.getD d.toNat 0).toNat) 0 = n

def utf8 (n : Nat) : Bytes := String.utf8EncodeChar (Char.ofNat n)

/-- The body of a JSON string and the text that it stands for. -/
inductive Decodes : Bytes → Bytes → Prop where
  | nil : Decodes [] []
  | plain {c : UInt8} {b w : Bytes} (hc : Plain c) (h : Decodes b w) : Decodes (c :: b) (c :: w)
  | escape {e c : UInt8} {b w : Bytes} (he : (e, c) ∈ escapes) (h : Decodes b w) :
      Decodes ('\\'.toUInt8 :: e :: b) (c :: w)
  | unicode {ds b w : Bytes} {n : Nat} (hds : CodeUnit ds n) (hn : n < 0xd800 ∨ 0xe000 ≤ n)
      (h : Decodes b w) : Decodes (ascii "\\u" ++ ds ++ b) (utf8 n ++ w)
  | pair {ds ds' b w : Bytes} {n n' : Nat} (hds : CodeUnit ds n) (hds' : CodeUnit ds' n')
      (hn : 0xd800 ≤ n ∧ n < 0xdc00) (hn' : 0xdc00 ≤ n' ∧ n' < 0xe000) (h : Decodes b w) :
      Decodes (ascii "\\u" ++ ds ++ ascii "\\u" ++ ds' ++ b)
        (utf8 (0x10000 + 0x400 * (n - 0xd800) + (n' - 0xdc00)) ++ w)

/-- A JSON string has no control characters. -/
theorem Decodes.printable {b w : Bytes} (h : Decodes b w) : ∀ c ∈ b, 0x20 ≤ c := by
  have hmark : ∀ c ∈ ascii "\\u", 0x20 ≤ c := by decide
  have hdigit {ds : Bytes} {n : Nat} (hds : CodeUnit ds n) : ∀ c ∈ ds, 0x20 ≤ c := by
    have hall : ∀ c : UInt8, isxdigit c = true → 0x20 ≤ c := forall_byte (by decide +kernel)
    exact fun c hc => hall c (hds.digits c hc)
  induction h with
  | nil => exact fun c hc => absurd hc List.not_mem_nil
  | plain hc _ ih => exact List.forall_mem_cons.mpr ⟨hc.1, ih⟩
  | escape he _ ih =>
    have hall : escapes.all (fun p => decide (0x20 ≤ p.1)) = true := by decide
    have hletter := of_decide_eq_true (List.all_eq_true.mp hall _ he)
    exact List.forall_mem_cons.mpr ⟨by decide, List.forall_mem_cons.mpr ⟨hletter, ih⟩⟩
  | unicode hds _ _ ih =>
    simp only [List.forall_mem_append]
    exact ⟨⟨hmark, hdigit hds⟩, ih⟩
  | pair hds hds' _ _ _ ih =>
    simp only [List.forall_mem_append]
    exact ⟨⟨⟨⟨hmark, hdigit hds⟩, hmark⟩, hdigit hds'⟩, ih⟩

theorem decodes_plain {v : Bytes} (h : ∀ c ∈ v, Plain c) : Decodes v v := by
  induction v with
  | nil => exact .nil
  | cons c v ih =>
    obtain ⟨hc, hv⟩ := List.forall_mem_cons.mp h
    exact .plain hc (ih hv)

/-! ## What the code computes -/

section

variable {v : Bytes}

theorem needEscape_iff (v : Bytes) : needEscape v = true ↔ ∃ c ∈ v, c ∈ labels := by
  induction v with
  | nil => simp [needEscape]
  | cons c v ih =>
    rw [needEscape]
    split
    · next hc => exact iff_of_true rfl ⟨c, List.mem_cons_self, hc⟩
    · next hc => simp [ih, hc]

/-- The passes agree on the width of a character. -/
theorem length_escapedChar (c : UInt8) :
    (escapedChar c).length = if c ∈ labels then 2 else 1 := by
  have hall : ∀ c : UInt8, (escapedChar c).length = if c ∈ labels then 2 else 1 :=
    forall_byte (by decide +kernel)
  exact hall c

theorem escapedSize_eq (v : Bytes) : escapedSize v = (v.flatMap escapedChar).length := by
  have hloop (size : Nat) :
      v.foldl (fun size c => if c ∈ labels then size + 2 else size + 1) size =
        size + (v.flatMap escapedChar).length := by
    induction v generalizing size with
    | nil => rfl
    | cons c v ih =>
      rw [List.foldl_cons, ih, List.flatMap_cons, List.length_append, length_escapedChar]
      split <;> omega
  rw [escapedSize, hloop, Nat.zero_add]

theorem escape_loop (v rt : Bytes) :
    v.foldl (fun rt c => rt ++ escapedChar c) rt = rt ++ v.flatMap escapedChar := by
  induction v generalizing rt with
  | nil => exact (List.append_nil rt).symm
  | cons c v ih => rw [List.foldl_cons, ih, List.flatMap_cons, List.append_assoc]

theorem escapedSize_cons (c : UInt8) (v : Bytes) :
    escapedSize (c :: v) = (if c ∈ labels then 2 else 1) + escapedSize v := by
  rw [escapedSize_eq, escapedSize_eq, List.flatMap_cons, List.length_append, length_escapedChar]

theorem length_le_escapedSize (v : Bytes) : v.length ≤ escapedSize v := by
  induction v with
  | nil => exact Nat.le_refl 0
  | cons c v ih =>
    rw [escapedSize_cons, List.length_cons]
    split <;> omega

/-- The size differs from that of the string where something is to be escaped. -/
theorem escapedSize_eq_length_iff (v : Bytes) :
    escapedSize v = v.length ↔ needEscape v = false := by
  induction v with
  | nil => exact iff_of_true rfl rfl
  | cons c v ih =>
    have hle := length_le_escapedSize v
    rw [escapedSize_cons, List.length_cons, needEscape]
    split
    · exact iff_of_false (by omega) (by simp)
    · rw [← ih]
      omega

/-- What is escaped stands behind as many zeros. -/
theorem escape_eq (h : needEscape v = true) :
    escape v = List.replicate (escapedSize v) 0 ++ v.flatMap escapedChar := by
  have hsize : escapedSize v ≠ v.length := by
    rw [Ne, escapedSize_eq_length_iff, h]
    exact nofun
  rw [escape, if_neg hsize, escape_loop]

theorem escape_of_not (h : needEscape v = false) : escape v = v :=
  if_pos ((escapedSize_eq_length_iff v).mpr h)

theorem length_escape (h : needEscape v = true) : (escape v).length = 2 * escapedSize v := by
  rw [escape_eq h, List.length_append, List.length_replicate, ← escapedSize_eq]
  omega

end

/-- The result is the body of a JSON string for `v`, of the size that the first loop computes, and
another string than `v` where `NeedEscape` says so. -/
structure Escaped (v : Bytes) : Prop where
  decodes : Decodes (escape v) v
  length : (escape v).length = escapedSize v
  differs : escape v ≠ v ↔ needEscape v = true

/-- **`Escape` is right where there is nothing to do.** -/
theorem escaped_iff (v : Bytes) : Escaped v ↔ ∀ c ∈ v, Plain c := by
  -- what has a label is not plain, but not the other way round: control characters have none
  have hlabels : ∀ c : UInt8, c ∈ labels → ¬ Plain c := forall_byte (by decide +kernel)
  have hplain : ∀ c : UInt8, 0x20 ≤ c → c ∉ labels → Plain c := forall_byte (by decide +kernel)
  constructor
  · intro h
    cases hneed : needEscape v with
    | true =>
      -- the zeros make it too long
      have hlen := h.length
      rw [length_escape hneed] at hlen
      have hle := length_le_escapedSize v
      obtain ⟨c, hc, -⟩ := (needEscape_iff v).mp hneed
      have hpos := List.length_pos_of_mem hc
      omega
    | false =>
      have hdecodes := h.decodes
      rw [escape_of_not hneed] at hdecodes
      intro c hc
      apply hplain c (hdecodes.printable c hc)
      intro hlabel
      rw [(needEscape_iff v).mpr ⟨c, hc, hlabel⟩] at hneed
      cases hneed
  · intro h
    have hneed : needEscape v = false := by
      rw [Bool.eq_false_iff, Ne, needEscape_iff]
      rintro ⟨c, hc, hlabel⟩
      exact hlabels c hlabel (h c hc)
    have hsame := escape_of_not hneed
    constructor
    case decodes =>
      rw [hsame]
      exact decodes_plain h
    case length => rw [hsame, (escapedSize_eq_length_iff v).mpr hneed]
    case differs => exact iff_of_false (not_not.mpr hsame) (by simp [hneed])

/-- A quote comes out behind two zeros, and a control character without a label as it is. -/
theorem not_escaped_quote :
    escape (ascii "\"") = [0, 0] ++ ascii "\\\"" ∧ ¬ Escaped (ascii "\"") ∧
      escape [1] = [1] ∧ ¬ Escaped [1] := by
  refine ⟨by decide, ?_, by decide, ?_⟩
  · intro h
    have hlen := h.length
    revert hlen
    decide
  · intro h
    have hprintable := h.decodes.printable 1 (by decide)
    revert hprintable
    decide

end Luwu.JsonUtil
