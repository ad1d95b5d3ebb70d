import Luwu.Lib.Bytes

/-!
# Hexadecimal strings

`hexstring_from_data` and `data_from_hexstring`.  The decoder takes digits of both cases, the
encoder writes lower case, so that decoding and encoding again lowers the case.
-/

namespace Luwu.HashUtil

/-- `std::invalid_argument`. -/
structure InvalidArgument where
  what : String
deriving DecidableEq, Repr

/-! ## The coders -/

/-- `(c > 9) ? c + 'a' - 10 : c + '0'`. -/
def hexDigit (c : UInt8) : UInt8 := if c > 9 then c + 'a'.toUInt8 - 10 else c + '0'.toUInt8

/-- The loop of `hexstring_from_data`. -/
def hexDigits : Bytes → Bytes
  | [] => []
  | b :: buf => hexDigit (b >>> 4 &&& 0xf) :: hexDigit (b &&& 0xf) :: hexDigits buf

def hexstringFromData (data : Bytes) : Bytes :=
  if data.length = 0 then [] else hexDigits data

/-- What the two `switch`es make of a character. -/
def hexValue (c : UInt8) : Except InvalidArgument UInt8 :=
  if 'a'.toUInt8 ≤ c ∧ c ≤ 'f'.toUInt8 then .ok (c - 'a'.toUInt8 + 10)
  else if 'A'.toUInt8 ≤ c ∧ c ≤ 'F'.toUInt8 then .ok (c - 'A'.toUInt8 + 10)
  else if '0'.toUInt8 ≤ c ∧ c ≤ '9'.toUInt8 then .ok (c - '0'.toUInt8)
  else .error ⟨"data_from_hexstring invalid hexstring"⟩

/-- The loop of `data_from_hexstring`, two characters a turn. -/
def hexBytes : Bytes → Except InvalidArgument Bytes
  | [] => .ok []
  | [c] => do
    let _ ← hexValue c
    -- behind the last character stands the terminating zero
    let _ ← hexValue 0
    .ok []
  | c :: d :: hexstring => do
    let high ← hexValue c
    let low ← hexValue d
    let buf ← hexBytes hexstring
    .ok ((high <<< 4 ||| low) :: buf)

def dataFromHexstring (hexstring : Bytes) : Except InvalidArgument Bytes :=
  if hexstring.length % 2 ≠ 0 then .error ⟨"data_from_hexstring length % 2 != 0"⟩
  else if hexstring.length = 0 then .ok []
  else hexBytes hexstring

/-! ## Digits -/

/-- `[0-9a-fA-F]`. -/
def IsHexDigit (c : UInt8) : Prop :=
  ('0'.toUInt8 ≤ c ∧ c ≤ '9'.toUInt8) ∨ ('a'.toUInt8 ≤ c ∧ c ≤ 'f'.toUInt8) ∨
    ('A'.toUInt8 ≤ c ∧ c ≤ 'F'.toUInt8)

instance (c : UInt8) : Decidable (IsHexDigit c) := inferInstanceAs (Decidable (_ ∨ _ ∨ _))

def lowerCase (c : UInt8) : UInt8 := if 'A'.toUInt8 ≤ c ∧ c ≤ 'Z'.toUInt8 then c + 32 else c

/-- A byte is decoded from its two digits. -/
theorem hexValue_hexDigit (b : UInt8) :
    hexValue (hexDigit (b >>> 4 &&& 0xf)) = .ok (b >>> 4 &&& 0xf) ∧
      hexValue (hexDigit (b &&& 0xf)) = .ok (b &&& 0xf) ∧
      (b >>> 4 &&& 0xf) <<< 4 ||| b &&& 0xf = b := by
  revert b
  exact forall_byte (by decide +kernel)

/-- A digit stands for a value below 16, whose digit is the same in lower case. -/
theorem hexValue_of_isHexDigit {c : UInt8} (hc : IsHexDigit c) :
    ∃ v : Fin 16, hexValue c = .ok (UInt8.ofNat v) ∧ hexDigit (UInt8.ofNat v) = lowerCase c := by
  have hall : ∀ c, IsHexDigit c →
      ∃ v : Fin 16, hexValue c = .ok (UInt8.ofNat v) ∧ hexDigit (UInt8.ofNat v) = lowerCase c :=
    forall_byte (by decide +kernel)
  exact hall c hc

theorem hexValue_of_not_isHexDigit {c : UInt8} (hc : ¬ IsHexDigit c) :
    hexValue c = .error ⟨"data_from_hexstring invalid hexstring"⟩ := by
  simp only [IsHexDigit, not_or] at hc
  rw [hexValue, if_neg hc.2.1, if_neg hc.2.2, if_neg hc.1]

/-- The halves of a byte. -/
theorem nibbles (h l : Fin 16) :
    (UInt8.ofNat h <<< 4 ||| UInt8.ofNat l) >>> 4 &&& 0xf = UInt8.ofNat h ∧
      (UInt8.ofNat h <<< 4 ||| UInt8.ofNat l) &&& 0xf = UInt8.ofNat l := by
  revert h l
  decide +kernel

/-! ## Whole strings -/

theorem length_hexDigits (x : Bytes) : (hexDigits x).length = 2 * x.length := by
  induction x with
  | nil => rfl
  | cons b x ih =>
    rw [hexDigits, List.length_cons, List.length_cons, List.length_cons, ih]
    omega

theorem hexBytes_hexDigits (x : Bytes) : hexBytes (hexDigits x) = .ok x := by
  induction x with
  | nil => rfl
  | cons b x ih =>
    obtain ⟨hhigh, hlow, hb⟩ := hexValue_hexDigit b
    rw [hexDigits, hexBytes, hhigh, hlow, ih]
    exact congrArg (fun b => Except.ok (b :: x)) hb

/-- Digits come in pairs, each of which is a byte. -/
theorem hexBytes_ok {s : Bytes} (heven : s.length % 2 = 0) (hs : ∀ c ∈ s, IsHexDigit c) :
    ∃ x, hexBytes s = .ok x ∧ hexDigits x = s.map lowerCase := by
  induction s using hexBytes.induct with
  | case1 => exact ⟨[], rfl, rfl⟩
  | case2 c => simp at heven
  | case3 c d s ih =>
    obtain ⟨hc, hd, hs⟩ : IsHexDigit c ∧ IsHexDigit d ∧ ∀ c ∈ s, IsHexDigit c := by
      simpa using hs
    obtain ⟨h, hh, hhigh⟩ := hexValue_of_isHexDigit hc
    obtain ⟨l, hl, hlow⟩ := hexValue_of_isHexDigit hd
    obtain ⟨x, hx, hdigits⟩ := ih (by rw [List.length_cons, List.length_cons] at heven; omega) hs
    refine ⟨(UInt8.ofNat h <<< 4 ||| UInt8.ofNat l) :: x, ?_, ?_⟩
    · rw [hexBytes, hh, hl, hx]
      rfl
    · rw [hexDigits, (nibbles h l).1, (nibbles h l).2, hhigh, hlow, hdigits]
      rfl

theorem hexBytes_bad_head {c d : UInt8} {s : Bytes} (h : ¬ (IsHexDigit c ∧ IsHexDigit d)) :
    hexBytes (c :: d :: s) = .error ⟨"data_from_hexstring invalid hexstring"⟩ := by
  by_cases hc : IsHexDigit c
  · obtain ⟨v, hv, -⟩ := hexValue_of_isHexDigit hc
    rw [hexBytes, hv, hexValue_of_not_isHexDigit fun hd => h ⟨hc, hd⟩]
    rfl
  · rw [hexBytes, hexValue_of_not_isHexDigit hc]
    rfl

/-- Another character is met in one of the two `switch`es. -/
theorem hexBytes_error {s : Bytes} (heven : s.length % 2 = 0) (hs : ¬ ∀ c ∈ s, IsHexDigit c) :
    ∃ e, hexBytes s = .error e := by
  induction s using hexBytes.induct with
  | case1 => exact absurd (List.forall_mem_nil _) hs
  | case2 c => simp at heven
  | case3 c d s ih =>
    by_cases hcd : IsHexDigit c ∧ IsHexDigit d
    · have hrest : ¬ ∀ c ∈ s, IsHexDigit c := fun hrest => hs (by simpa using ⟨hcd.1, hcd.2, hrest⟩)
      obtain ⟨e, he⟩ := ih (by rw [List.length_cons, List.length_cons] at heven; omega) hrest
      obtain ⟨h, hh, -⟩ := hexValue_of_isHexDigit hcd.1
      obtain ⟨l, hl, -⟩ := hexValue_of_isHexDigit hcd.2
      refine ⟨e, ?_⟩
      rw [hexBytes, hh, hl, he]
      rfl
    · exact ⟨_, hexBytes_bad_head hcd⟩

theorem hexstringFromData_eq (x : Bytes) : hexstringFromData x = hexDigits x := by
  cases x <;> rfl

theorem dataFromHexstring_of_even {s : Bytes} (heven : s.length % 2 = 0) :
    dataFromHexstring s = hexBytes s := by
  cases s with
  | nil => rfl
  | cons c s => rw [dataFromHexstring, if_neg (not_not.mpr heven), if_neg (by simp)]

/-- `data_from_hexstring` decodes an even number of digits, up to their case, and throws for every
other string. -/
def DecodesHex (s : Bytes) : Prop :=
  if s.length % 2 = 0 ∧ ∀ c ∈ s, IsHexDigit c then
    ∃ data, dataFromHexstring s = .ok data ∧ hexstringFromData data = s.map lowerCase
  else ∃ e, dataFromHexstring s = .error e

theorem decodesHex (s : Bytes) : DecodesHex s := by
  unfold DecodesHex
  split_ifs with h
  · obtain ⟨x, hx, hdigits⟩ := hexBytes_ok h.1 h.2
    exact ⟨x, by rw [dataFromHexstring_of_even h.1, hx], by rw [hexstringFromData_eq, hdigits]⟩
  · by_cases heven : s.length % 2 = 0
    · rw [dataFromHexstring_of_even heven]
      exact hexBytes_error heven fun hs => h ⟨heven, hs⟩
    · exact ⟨_, if_pos heven⟩

/-- **The coders are inverse to each other**, up to the case of the digits. -/
theorem hexstring_codec (x s : Bytes) :
    dataFromHexstring (hexstringFromData x) = .ok x ∧ DecodesHex s := by
  refine ⟨?_, decodesHex s⟩
  have heven : (hexDigits x).length % 2 = 0 := by
    rw [length_hexDigits]
    omega
  rw [hexstringFromData_eq, dataFromHexstring_of_even heven, hexBytes_hexDigits]

end Luwu.HashUtil
