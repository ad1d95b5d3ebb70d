import Luwu.Lib.Bytes

/-!
# Base 64

`base64encode` and `base64decode`.  The decoder writes through a pointer into a string that it sized
before; a write behind the end of it is an error here.
-/

namespace Luwu.HashUtil

/-! ## The encoder -/

def base64 : Bytes :=
  ascii "ABCDEFGHIJKLMNOPQRSTUVWXYZabcdefghijklmnopqrstuvwxyz0123456789+/"

def base64Char (packed shift : Nat) : UInt8 := base64.getD (packed >>> shift &&& 0x3f) 0

/-- `base64encode`: a turn of the loop takes up to three bytes. -/
def base64encode : Bytes → Bytes
  | [] => []
  | [a] =>
    let packed := a.toNat <<< 16
    [base64Char packed 18, base64Char packed 12] ++ ascii "=="
  | [a, b] =>
    let packed := (a.toNat <<< 8 ||| b.toNat) <<< 8
    [base64Char packed 18, base64Char packed 12, base64Char packed 6] ++ ascii "="
  | a :: b :: c :: data =>
    let packed := (a.toNat <<< 8 ||| b.toNat) <<< 8 ||| c.toNat
    [base64Char packed 18, base64Char packed 12, base64Char packed 6, base64Char packed 0] ++
      base64encode data

/-! ## The decoder -/

/-- What a character of the alphabet stands for.  A `char` above 127 is negative, and none. -/
def base64Value (c : UInt8) : Option Nat :=
  if 'A'.toUInt8 ≤ c ∧ c ≤ 'Z'.toUInt8 then some (c - 'A'.toUInt8).toNat
  else if 'a'.toUInt8 ≤ c ∧ c ≤ 'z'.toUInt8 then some ((c - 'a'.toUInt8).toNat + 26)
  else if '0'.toUInt8 ≤ c ∧ c ≤ '9'.toUInt8 then some ((c - '0'.toUInt8).toNat + 52)
  else if c = '+'.toUInt8 then some 62
  else if c = '/'.toUInt8 then some 63
  else none

/-- What the inner loop has made of the characters of a group. -/
structure Quad where
  padding : Nat
  packed : Nat
deriving DecidableEq, Repr

/-- The body of the inner loop; `none` is `return ""`. -/
def Quad.take (q : Quad) (c : UInt8) : Option Quad :=
  if c = '='.toUInt8 then some { padding := q.padding + 1, packed := q.packed <<< 6 }
  else if q.padding > 0 then none
  else (base64Value c).map fun val => { q with packed := q.packed <<< 6 ||| val }

/-- The inner loop from the character `i` of a group on.  It stops behind the fourth character or at
the end of the string. -/
def readQuad : Nat → Quad → Bytes → Option (Nat × Quad × Bytes)
  | i, q, [] => some (i, q, [])
  | i, q, c :: ptr =>
    if i < 4 then (q.take c).bind fun q => readQuad (i + 1) q ptr
    else some (i, q, c :: ptr)

/-- `*writeBuf++ = b`, where `written` stands in front of `writeBuf`. -/
def write (size : Nat) (written : Bytes) (b : Nat) : Except Nat Bytes :=
  if written.length < size then .ok (written ++ [UInt8.ofNat (b &&& 0xff)])
  else .error written.length

/-- The bytes of a group. -/
def writeQuad (size : Nat) (written : Bytes) (q : Quad) : Except Nat Bytes := do
  let written ← write size written (q.packed >>> 16)
  let written ← if q.padding ≠ 2 then write size written (q.packed >>> 8) else pure written
  if q.padding = 0 then write size written q.packed else pure written

theorem readQuad_length {i i' : Nat} {q q' : Quad} {ptr rest : Bytes}
    (h : readQuad i q ptr = some (i', q', rest)) : rest.length + i' = ptr.length + i := by
  induction ptr generalizing i q with
  | nil =>
    cases h
    rfl
  | cons c ptr ih =>
    rw [readQuad] at h
    split at h
    · obtain ⟨q'', -, hrest⟩ := Option.bind_eq_some_iff.mp h
      rw [ih hrest, List.length_cons]
      omega
    · cases h
      rfl

/-- The outer loop. -/
def decodeLoop (size : Nat) (written ptr : Bytes) : Except Nat Bytes :=
  if ptr = [] then .ok written
  else
    match _ : readQuad 0 ⟨0, 0⟩ ptr with
    | none => .ok []
    | some (i, q, rest) =>
      -- the string ends within the group
      if _ : i ≠ 4 then .ok []
      -- a padded group is the last one
      else if q.padding > 0 ∧ rest ≠ [] then .ok []
      else if q.padding > 2 then .ok []
      else do
        let written ← writeQuad size written q
        decodeLoop size written rest
termination_by ptr.length
decreasing_by
  have := readQuad_length ‹readQuad 0 ⟨0, 0⟩ ptr = _›
  omega

def base64decode (src : Bytes) : Except Nat Bytes := decodeLoop (src.length * 3 / 4) [] src

/-! ## The alphabet -/

theorem base64Value_base64Char (packed shift : Nat) :
    base64Value (base64Char packed shift) = some (packed >>> shift &&& 0x3f) := by
  have hall : ∀ v : Fin 64, base64Value (base64.getD v 0) = some v.val := by decide +kernel
  exact hall ⟨_, Nat.lt_of_le_of_lt Nat.and_le_right (by decide)⟩

theorem isSome_base64Value : ∀ c ∈ base64, (base64Value c).isSome := by decide +kernel

theorem getElem?_base64Value (c : UInt8) :
    (base64Value c).all (fun v => base64[v]? = some c) = true := by
  have hall : ∀ c, (base64Value c).all (fun v => base64[v]? = some c) = true :=
    forall_byte (by decide +kernel)
  exact hall c

theorem base64Value_eq_none {c : UInt8} : base64Value c = none ↔ c ∉ base64 := by
  constructor
  · intro hnone hc
    have hsome := isSome_base64Value c hc
    rw [hnone] at hsome
    cases hsome
  · intro hc
    cases hvalue : base64Value c with
    | none => rfl
    | some v =>
      have hget := getElem?_base64Value c
      rw [hvalue, Option.all_some, decide_eq_true_iff] at hget
      exact absurd (List.mem_of_getElem? hget) hc

theorem pad_not_mem : '='.toUInt8 ∉ base64 := by decide

/-! ## Groups -/

section

variable {q : Quad} {c : UInt8} {size : Nat} {written ptr rest : Bytes}

theorem Quad.take_pad (q : Quad) :
    q.take '='.toUInt8 = some { padding := q.padding + 1, packed := q.packed <<< 6 } :=
  if_pos rfl

theorem Quad.take_value {v : Nat} (hq : q.padding = 0) (h : base64Value c = some v) :
    q.take c = some { padding := 0, packed := q.packed <<< 6 ||| v } := by
  have hc : c ≠ '='.toUInt8 := by
    rintro rfl
    rw [base64Value_eq_none.mpr pad_not_mem] at h
    cases h
  rw [Quad.take, if_neg hc, if_neg (by omega), h, ← hq]
  rfl

theorem shiftRight_or_and (m : Nat) : (m >>> 6) <<< 6 ||| m &&& 0x3f = m := by
  have hmod : m &&& 0x3f = m % 64 := Nat.and_two_pow_sub_one_eq_mod m 6
  rw [hmod, ← Nat.shiftLeft_add_eq_or_of_lt (Nat.mod_lt m (by decide)), Nat.shiftLeft_eq,
    Nat.shiftRight_eq_div_pow]
  omega

/-- A character of the encoder brings the next six bits down. -/
theorem Quad.take_base64Char (packed k : Nat) :
    (Quad.mk 0 (packed >>> (k + 6))).take (base64Char packed k) = some ⟨0, packed >>> k⟩ := by
  rw [Quad.take_value rfl (base64Value_base64Char packed k), Nat.shiftRight_add, shiftRight_or_and]

theorem readQuad_cons {i : Nat} (hi : i < 4) :
    readQuad i q (c :: ptr) = (q.take c).bind fun q => readQuad (i + 1) q ptr := if_pos hi

theorem readQuad_four : readQuad 4 q ptr = some (4, q, ptr) := by
  cases ptr <;> rfl

/-- A group that passes the tests is written out, and the loop goes on behind it. -/
theorem decodeLoop_quad (hptr : ptr ≠ []) (hread : readQuad 0 ⟨0, 0⟩ ptr = some (4, q, rest))
    (hpad : q.padding ≤ 2) (hlast : rest = [] ∨ q.padding = 0) :
    decodeLoop size written ptr =
      writeQuad size written q >>= fun written => decodeLoop size written rest := by
  rw [decodeLoop, if_neg hptr]
  split
  · next h => rw [h] at hread; cases hread
  · next h =>
    rw [h] at hread
    cases hread
    have hmore : ¬ (q.padding > 0 ∧ rest ≠ []) := by
      rintro ⟨hpos, hrest⟩
      exact hlast.elim hrest fun h => absurd h (by omega)
    rw [dif_neg (by decide), if_neg hmore, if_neg (by omega)]

theorem decodeLoop_reject (hptr : ptr ≠ [])
    (h : ∀ q rest, readQuad 0 ⟨0, 0⟩ ptr = some (4, q, rest) →
      ¬ (q.padding ≤ 2 ∧ (rest = [] ∨ q.padding = 0))) :
    decodeLoop size written ptr = .ok [] := by
  rw [decodeLoop, if_neg hptr]
  split
  · rfl
  · next i q rest hread =>
    split_ifs with hi hmore hpad
    · rfl
    · rfl
    · rfl
    · obtain rfl : i = 4 := not_not.mp hi
      refine absurd ⟨Nat.not_lt.mp hpad, ?_⟩ (h q rest hread)
      by_contra hlast
      rw [not_or] at hlast
      exact hmore ⟨Nat.pos_of_ne_zero hlast.2, hlast.1⟩

/-- The bytes that a group stands for. -/
def Quad.bytes (q : Quad) : Bytes :=
  ([q.packed >>> 16, q.packed >>> 8, q.packed].take (3 - q.padding)).map
    fun b => UInt8.ofNat (b &&& 0xff)

theorem Quad.bytes_mk_zero (packed : Nat) : Quad.bytes ⟨0, packed⟩ =
    [UInt8.ofNat (packed >>> 16 &&& 0xff), UInt8.ofNat (packed >>> 8 &&& 0xff),
      UInt8.ofNat (packed >>> 0 &&& 0xff)] := rfl

theorem Quad.bytes_mk_one (packed : Nat) : Quad.bytes ⟨1, packed⟩ =
    [UInt8.ofNat (packed >>> 16 &&& 0xff), UInt8.ofNat (packed >>> 8 &&& 0xff)] := rfl

theorem Quad.bytes_mk_two (packed : Nat) : Quad.bytes ⟨2, packed⟩ =
    [UInt8.ofNat (packed >>> 16 &&& 0xff)] := rfl

theorem write_ok {b : Nat} (h : written.length < size) :
    write size written b = .ok (written ++ [UInt8.ofNat (b &&& 0xff)]) := if_pos h

theorem write_bind {b : Nat} {f : Bytes → Except Nat Bytes} (h : written.length < size) :
    (write size written b >>= f) = f (written ++ [UInt8.ofNat (b &&& 0xff)]) := by
  rw [write_ok h]
  rfl

theorem writeQuad_ok (hpad : q.padding ≤ 2) (hsize : written.length + (3 - q.padding) ≤ size) :
    writeQuad size written q = .ok (written ++ q.bytes) := by
  obtain ⟨padding, packed⟩ := q
  dsimp only at hpad hsize
  rw [writeQuad, write_bind (by omega)]
  dsimp only
  obtain rfl | rfl | rfl : padding = 0 ∨ padding = 1 ∨ padding = 2 := by omega
  · rw [if_pos (by decide), write_bind (by rw [List.length_append, List.length_singleton]; omega),
      if_pos rfl, write_ok (by simp only [List.length_append, List.length_singleton]; omega),
      List.append_assoc, List.append_assoc]
    rfl
  · rw [if_pos (by decide), write_bind (by rw [List.length_append, List.length_singleton]; omega),
      if_neg (by decide), List.append_assoc]
    rfl
  · rfl

end

/-! ## The round trip -/

section

variable {a b c : UInt8} {size : Nat} {written : Bytes}

theorem shiftLeft_or_byte (n : Nat) (b : UInt8) : n <<< 8 ||| b.toNat = 256 * n + b.toNat := by
  rw [← Nat.shiftLeft_add_eq_or_of_lt b.toNat_lt, Nat.shiftLeft_eq, Nat.mul_comm]

theorem ofNat_shiftRight {n k : Nat} (h : n / 2 ^ k % 256 = a.toNat) :
    UInt8.ofNat (n >>> k &&& 0xff) = a := by
  have hmod : n >>> k &&& 0xff = n >>> k % 256 := Nat.and_two_pow_sub_one_eq_mod _ 8
  rw [hmod, Nat.shiftRight_eq_div_pow, h, UInt8.ofNat_toNat]

/-- The bytes of a full group. -/
theorem bytes_three :
    Quad.bytes ⟨0, (a.toNat <<< 8 ||| b.toNat) <<< 8 ||| c.toNat⟩ = [a, b, c] := by
  have ha := a.toNat_lt
  have hb := b.toNat_lt
  have hc := c.toNat_lt
  rw [shiftLeft_or_byte, shiftLeft_or_byte, Quad.bytes_mk_zero,
    ofNat_shiftRight (a := a) (by omega), ofNat_shiftRight (a := b) (by omega),
    ofNat_shiftRight (a := c) (by omega)]

/-- The bytes of a group that one character is missing of. -/
theorem bytes_two :
    Quad.bytes ⟨1, ((a.toNat <<< 8 ||| b.toNat) <<< 8 >>> 6) <<< 6⟩ = [a, b] := by
  have ha := a.toNat_lt
  have hb := b.toNat_lt
  rw [shiftLeft_or_byte, Nat.shiftLeft_eq, Nat.shiftLeft_eq, Nat.shiftRight_eq_div_pow,
    Quad.bytes_mk_one, ofNat_shiftRight (a := a) (by omega), ofNat_shiftRight (a := b) (by omega)]

theorem bytes_one : Quad.bytes ⟨2, (a.toNat <<< 16 >>> 12) <<< 6 <<< 6⟩ = [a] := by
  have ha := a.toNat_lt
  rw [Nat.shiftLeft_eq, Nat.shiftLeft_eq, Nat.shiftLeft_eq, Nat.shiftRight_eq_div_pow,
    Quad.bytes_mk_two, ofNat_shiftRight (a := a) (by omega)]

/-- What the first characters of a group amount to, when the encoder wrote them. -/
theorem readQuad_two {packed : Nat} (hpacked : packed < 2 ^ 24) (ptr : Bytes) :
    readQuad 0 ⟨0, 0⟩ (base64Char packed 18 :: base64Char packed 12 :: ptr) =
      readQuad 2 ⟨0, packed >>> 12⟩ ptr := by
  have hzero : packed >>> (18 + 6) = 0 := by
    rw [Nat.shiftRight_eq_div_pow, Nat.div_eq_of_lt hpacked]
  have hfirst := Quad.take_base64Char packed 18
  rw [hzero] at hfirst
  rw [readQuad_cons (by decide), hfirst, Option.bind_some, readQuad_cons (by decide),
    Quad.take_base64Char packed 12, Option.bind_some]

theorem readQuad_one (a : UInt8) : readQuad 0 ⟨0, 0⟩ (base64encode [a]) =
    some (4, ⟨2, (a.toNat <<< 16 >>> 12) <<< 6 <<< 6⟩, []) := by
  have hpacked : a.toNat <<< 16 < 2 ^ 24 := by
    have ha := a.toNat_lt
    rw [Nat.shiftLeft_eq]
    omega
  exact readQuad_two hpacked (ascii "==")

theorem readQuad_pair (a b : UInt8) : readQuad 0 ⟨0, 0⟩ (base64encode [a, b]) =
    some (4, ⟨1, ((a.toNat <<< 8 ||| b.toNat) <<< 8 >>> 6) <<< 6⟩, []) := by
  have hpacked : (a.toNat <<< 8 ||| b.toNat) <<< 8 < 2 ^ 24 := by
    have ha := a.toNat_lt
    have hb := b.toNat_lt
    rw [shiftLeft_or_byte, Nat.shiftLeft_eq]
    omega
  rw [base64encode]
  refine (readQuad_two hpacked (_ :: ascii "=")).trans ?_
  rw [readQuad_cons (by decide), Quad.take_base64Char _ 6]
  rfl

theorem readQuad_three (a b c : UInt8) (data : Bytes) :
    readQuad 0 ⟨0, 0⟩ (base64encode (a :: b :: c :: data)) =
      some (4, ⟨0, (a.toNat <<< 8 ||| b.toNat) <<< 8 ||| c.toNat⟩, base64encode data) := by
  have hpacked : (a.toNat <<< 8 ||| b.toNat) <<< 8 ||| c.toNat < 2 ^ 24 := by
    have ha := a.toNat_lt
    have hb := b.toNat_lt
    have hc := c.toNat_lt
    rw [shiftLeft_or_byte, shiftLeft_or_byte]
    omega
  rw [base64encode]
  refine (readQuad_two hpacked (_ :: _ :: base64encode data)).trans ?_
  rw [readQuad_cons (by decide), Quad.take_base64Char _ 6, Option.bind_some,
    readQuad_cons (by decide), Quad.take_base64Char _ 0, Option.bind_some]
  exact readQuad_four

/-- Decoding the text of the encoder appends what it was made of. -/
theorem decodeLoop_base64encode (x : Bytes) (hsize : written.length + x.length ≤ size) :
    decodeLoop size written (base64encode x) = .ok (written ++ x) := by
  induction x using base64encode.induct generalizing written with
  | case1 =>
    rw [base64encode, decodeLoop, if_pos rfl, List.append_nil]
  | case2 a =>
    rw [decodeLoop_quad (by simp [base64encode]) (readQuad_one a) (Nat.le_refl 2) (.inl rfl),
      writeQuad_ok (Nat.le_refl 2) hsize, bytes_one]
    show decodeLoop size (written ++ [a]) [] = _
    rw [decodeLoop, if_pos rfl]
  | case3 a b =>
    rw [decodeLoop_quad (by simp [base64encode]) (readQuad_pair a b) (Nat.le_succ 1) (.inl rfl),
      writeQuad_ok (Nat.le_succ 1) hsize, bytes_two]
    show decodeLoop size (written ++ [a, b]) [] = _
    rw [decodeLoop, if_pos rfl]
  | case4 a b c data ih =>
    -- a full group; the induction is about what follows it
    have hlen : (a :: b :: c :: data).length = data.length + 3 := rfl
    rw [decodeLoop_quad (by simp [base64encode]) (readQuad_three a b c data) (Nat.zero_le 2)
      (.inr rfl), writeQuad_ok (Nat.zero_le 2) (by omega), bytes_three]
    show decodeLoop size (written ++ [a, b, c]) (base64encode data) = _
    rw [ih (by simp only [List.length_append, List.length_cons, List.length_nil]; omega),
      List.append_assoc]
    rfl

end

theorem base64Char_mem (packed shift : Nat) : base64Char packed shift ∈ base64 := by
  by_contra h
  have hnone := base64Value_eq_none.mpr h
  rw [base64Value_base64Char] at hnone
  cases hnone

theorem length_base64encode (x : Bytes) : (base64encode x).length = 4 * ((x.length + 2) / 3) := by
  induction x using base64encode.induct with
  | case1 => rfl
  | case2 a =>
    rw [base64encode, List.length_append, show (ascii "==").length = 2 by decide]
    simp only [List.length_cons, List.length_nil]
  | case3 a b =>
    rw [base64encode, List.length_append, show (ascii "=").length = 1 by decide]
    simp only [List.length_cons, List.length_nil]
  | case4 a b c data ih =>
    rw [base64encode, List.length_append, ih]
    simp only [List.length_cons, List.length_nil]
    omega

/-- Characters of the alphabet, and at most two pads behind them. -/
def Padded (s : Bytes) : Prop :=
  ∃ body n, n ≤ 2 ∧ s = body ++ List.replicate n '='.toUInt8 ∧ ∀ c ∈ body, c ∈ base64

theorem Padded.cons {c : UInt8} {s : Bytes} (hc : c ∈ base64) (hs : Padded s) :
    Padded (c :: s) := by
  obtain ⟨body, n, hn, rfl, hbody⟩ := hs
  exact ⟨c :: body, n, hn, rfl, List.forall_mem_cons.mpr ⟨hc, hbody⟩⟩

theorem padded_replicate {n : Nat} (hn : n ≤ 2) : Padded (List.replicate n '='.toUInt8) :=
  ⟨[], n, hn, rfl, List.forall_mem_nil _⟩

theorem padded_base64encode (x : Bytes) : Padded (base64encode x) := by
  induction x using base64encode.induct with
  | case1 => exact padded_replicate (Nat.zero_le 2)
  | case2 a =>
    exact .cons (base64Char_mem _ _) (.cons (base64Char_mem _ _) (padded_replicate (Nat.le_refl 2)))
  | case3 a b =>
    exact .cons (base64Char_mem _ _) (.cons (base64Char_mem _ _) (.cons (base64Char_mem _ _)
      (padded_replicate (Nat.le_succ 1))))
  | case4 a b c data ih =>
    exact .cons (base64Char_mem _ _) (.cons (base64Char_mem _ _) (.cons (base64Char_mem _ _)
      (.cons (base64Char_mem _ _) ih)))

/-- **Decoding inverts encoding**, and the encoder pads its text only at the end. -/
theorem base64decode_base64encode (x : Bytes) :
    base64decode (base64encode x) = .ok x ∧
      (base64encode x).length = 4 * ((x.length + 2) / 3) ∧
      ∃ body n, n ≤ 2 ∧ base64encode x = body ++ List.replicate n '='.toUInt8 ∧
        '='.toUInt8 ∉ body := by
  refine ⟨?_, length_base64encode x, ?_⟩
  · rw [base64decode, decodeLoop_base64encode, List.nil_append]
    rw [length_base64encode, List.length_nil]
    omega
  · obtain ⟨body, n, hn, hx, hbody⟩ := padded_base64encode x
    exact ⟨body, n, hn, hx, fun h => pad_not_mem (hbody _ h)⟩

/-! ## The accepted strings -/

section

variable {q q' : Quad} {p n size : Nat} {cs ptr written : Bytes}

theorem foldlM_take_alphabet (hcs : ∀ c ∈ cs, c ∈ base64) (p : Nat) :
    ∃ p', cs.foldlM Quad.take ⟨0, p⟩ = some ⟨0, p'⟩ := by
  induction cs generalizing p with
  | nil => exact ⟨p, rfl⟩
  | cons c cs ih =>
    obtain ⟨hc, hcs⟩ := List.forall_mem_cons.mp hcs
    obtain ⟨v, hv⟩ := Option.ne_none_iff_exists'.mp (mt base64Value_eq_none.mp (not_not.mpr hc))
    obtain ⟨p', hp'⟩ := ih hcs (p <<< 6 ||| v)
    refine ⟨p', ?_⟩
    rw [List.foldlM_cons, Quad.take_value rfl hv]
    exact hp'

theorem foldlM_take_pads (q : Quad) (n : Nat) :
    ∃ p', (List.replicate n '='.toUInt8).foldlM Quad.take q = some ⟨q.padding + n, p'⟩ := by
  induction n generalizing q with
  | zero => exact ⟨q.packed, rfl⟩
  | succ n ih =>
    obtain ⟨p', hp'⟩ := ih ⟨q.padding + 1, q.packed <<< 6⟩
    refine ⟨p', ?_⟩
    rw [List.replicate_succ, List.foldlM_cons, Quad.take_pad, Nat.add_comm n 1, ← Nat.add_assoc]
    exact hp'

/-- Behind a pad there are only pads. -/
theorem foldlM_take_padded (hq : 0 < q.padding) (h : cs.foldlM Quad.take q = some q') :
    cs = List.replicate cs.length '='.toUInt8 ∧ q'.padding = q.padding + cs.length := by
  induction cs generalizing q with
  | nil =>
    cases h
    exact ⟨rfl, rfl⟩
  | cons c cs ih =>
    rw [List.foldlM_cons] at h
    by_cases hc : c = '='.toUInt8
    · rw [hc, Quad.take_pad] at h
      obtain ⟨hcs, hpadding⟩ := ih (Nat.succ_pos q.padding) h
      refine ⟨?_, ?_⟩
      · rw [List.length_cons, List.replicate_succ, ← hcs, hc]
      · rw [hpadding, List.length_cons, Nat.add_right_comm, Nat.add_assoc]
    · rw [Quad.take, if_neg hc, if_pos hq] at h
      cases h

/-- A group is read just when it is characters of the alphabet and pads behind them. -/
theorem foldlM_take_iff :
    (∃ p', cs.foldlM Quad.take ⟨0, p⟩ = some ⟨n, p'⟩) ↔
      ∃ body, cs = body ++ List.replicate n '='.toUInt8 ∧ ∀ c ∈ body, c ∈ base64 := by
  constructor
  · rintro ⟨p', h⟩
    induction cs generalizing p with
    | nil =>
      cases h
      exact ⟨[], rfl, List.forall_mem_nil _⟩
    | cons c cs ih =>
      rw [List.foldlM_cons] at h
      by_cases hpad : c = '='.toUInt8
      -- behind a pad there are pads only
      · rw [hpad, Quad.take_pad] at h
        obtain ⟨hcs, hn⟩ := foldlM_take_padded Nat.one_pos h
        refine ⟨[], ?_, List.forall_mem_nil _⟩
        rw [List.nil_append, show n = cs.length + 1 by dsimp only at hn; omega, List.replicate_succ,
          ← hcs, hpad]
      · cases hv : base64Value c with
        | none =>
          rw [Quad.take, if_neg hpad, if_neg (Nat.lt_irrefl 0), hv] at h
          cases h
        | some v =>
          rw [Quad.take_value rfl hv] at h
          obtain ⟨body, rfl, hbody⟩ := ih h
          have hc : c ∈ base64 := by
            by_contra hc
            rw [base64Value_eq_none.mpr hc] at hv
            cases hv
          exact ⟨c :: body, rfl, List.forall_mem_cons.mpr ⟨hc, hbody⟩⟩
  · rintro ⟨body, rfl, hbody⟩
    obtain ⟨p', hp'⟩ := foldlM_take_alphabet hbody p
    obtain ⟨p'', hp''⟩ := foldlM_take_pads ⟨0, p'⟩ n
    refine ⟨p'', ?_⟩
    rw [List.foldlM_append, hp']
    simpa using hp''

theorem readQuad_eq {i : Nat} (hi : i ≤ 4) :
    readQuad i q ptr = ((ptr.take (4 - i)).foldlM Quad.take q).map fun q =>
      (i + min (4 - i) ptr.length, q, ptr.drop (4 - i)) := by
  induction ptr generalizing i q with
  | nil => simp [readQuad]
  | cons c ptr ih =>
    rcases Nat.lt_or_ge i 4 with hlt | hge
    · obtain ⟨k, hk⟩ : ∃ k, 4 - i = k + 1 := ⟨3 - i, by omega⟩
      have hk' : 4 - (i + 1) = k := by omega
      rw [readQuad_cons hlt, hk, List.take_succ_cons, List.foldlM_cons, List.drop_succ_cons]
      cases q.take c with
      | none => rfl
      | some q' =>
        have hmin : i + min (k + 1) (ptr.length + 1) = i + 1 + min k ptr.length := by omega
        rw [Option.bind_some, ih hlt, hk', List.length_cons, hmin]
        rfl
    · obtain rfl : i = 4 := by omega
      rw [readQuad_four]
      rfl

/-- The first group of a padded string has all the pads, or what follows is padded too. -/
theorem padded_iff (hlen : 4 ≤ ptr.length) (hmod : ptr.length % 4 = 0) :
    Padded ptr ↔ ∃ q, (ptr.take 4).foldlM Quad.take ⟨0, 0⟩ = some q ∧ q.padding ≤ 2 ∧
      (ptr.drop 4 = [] ∨ q.padding = 0 ∧ Padded (ptr.drop 4)) := by
  constructor
  · rintro ⟨body, n, hn, rfl, hbody⟩
    rw [List.length_append, List.length_replicate] at hlen hmod
    by_cases hlast : body.length + n = 4
    · obtain ⟨p, hp⟩ := foldlM_take_iff.mpr ⟨body, rfl, hbody⟩
      refine ⟨⟨n, p⟩, ?_, hn, .inl ?_⟩
      · rw [List.take_of_length_le (by simp [hlast])]
        exact hp
      · rw [List.drop_eq_nil_of_le (by simp [hlast])]
    · -- a full group in front of the pads
      have hfull : 4 ≤ body.length := by omega
      obtain ⟨p, hp⟩ := foldlM_take_alphabet
        (fun c (hc : c ∈ body.take 4) => hbody c (List.mem_of_mem_take hc)) 0
      refine ⟨⟨0, p⟩, ?_, Nat.zero_le 2, .inr ⟨rfl, body.drop 4, n, hn, ?_, ?_⟩⟩
      · rw [List.take_append_of_le_length hfull]
        exact hp
      · rw [List.drop_append_of_le_length hfull]
      · exact fun c hc => hbody c (List.mem_of_mem_drop hc)
  · rintro ⟨⟨n, p⟩, hp, hn, hrest⟩
    obtain ⟨body, htake, hbody⟩ := foldlM_take_iff.mp ⟨p, hp⟩
    rcases hrest with hnil | ⟨hzero, body', n', hn', hdrop, hbody'⟩
    · -- one group
      refine ⟨body, n, hn, ?_, hbody⟩
      rw [← htake, ← List.take_append_drop 4 ptr, hnil, List.append_nil, List.take_take]
      rfl
    · obtain rfl : n = 0 := hzero
      refine ⟨body ++ body', n', hn', ?_, ?_⟩
      · rw [← List.take_append_drop 4 ptr, htake, hdrop]
        simp
      · exact fun c hc => (List.mem_append.mp hc).elim (hbody c) (hbody' c)

theorem Quad.bytes_ne_nil (hq : q.padding ≤ 2) (written : Bytes) : written ++ q.bytes ≠ [] := by
  obtain ⟨padding, packed⟩ := q
  obtain rfl | rfl | rfl : padding = 0 ∨ padding = 1 ∨ padding = 2 := by
    dsimp only at hq
    omega
  all_goals exact List.append_ne_nil_of_right_ne_nil _ (List.cons_ne_nil _ _)

theorem Quad.length_bytes (q : Quad) : q.bytes.length = 3 - q.padding := by
  simp [Quad.bytes]

/-- The loop gives bytes just for padded strings of whole groups, and has the room for them. -/
theorem decodeLoop_spec (hptr : ptr ≠ []) (hsize : written.length + ptr.length * 3 / 4 ≤ size) :
    ∃ r, decodeLoop size written ptr = .ok r ∧ (r ≠ [] ↔ ptr.length % 4 = 0 ∧ Padded ptr) := by
  obtain ⟨n, hn⟩ : ∃ n, n = ptr.length := ⟨_, rfl⟩
  induction n using Nat.strongRecOn generalizing ptr written with
  | _ n ih =>
    by_cases hgood : 4 ≤ ptr.length ∧ ∃ q, (ptr.take 4).foldlM Quad.take ⟨0, 0⟩ = some q ∧
        q.padding ≤ 2 ∧ (ptr.drop 4 = [] ∨ q.padding = 0)
    · obtain ⟨hlen, q, hq, hpad, hlast⟩ := hgood
      have hread : readQuad 0 ⟨0, 0⟩ ptr = some (4, q, ptr.drop 4) := by
        rw [readQuad_eq (Nat.zero_le 4), Nat.sub_zero, hq, Nat.min_eq_left hlen]
        rfl
      have hdrop := List.length_drop (i := 4) (l := ptr)
      rw [decodeLoop_quad hptr hread hpad hlast, writeQuad_ok hpad (by omega)]
      by_cases hnil : ptr.drop 4 = []
      · -- the last group
        rw [hnil, List.length_nil] at hdrop
        have hmod : ptr.length % 4 = 0 := by omega
        refine ⟨written ++ q.bytes, ?_, ?_⟩
        · rw [hnil]
          show decodeLoop size (written ++ q.bytes) [] = _
          rw [decodeLoop, if_pos rfl]
        · exact iff_of_true (Quad.bytes_ne_nil hpad written)
            ⟨hmod, (padded_iff hlen hmod).mpr ⟨q, hq, hpad, .inl hnil⟩⟩
      · -- the group is not padded, and the rest decides
        have hzero : q.padding = 0 := hlast.resolve_left hnil
        have hroom : (written ++ q.bytes).length + (ptr.drop 4).length * 3 / 4 ≤ size := by
          rw [List.length_append, Quad.length_bytes]
          omega
        obtain ⟨r, hr, hiff⟩ := ih (ptr.drop 4).length (by omega) hnil hroom rfl
        refine ⟨r, hr, hiff.trans ?_⟩
        have hmod : (ptr.drop 4).length % 4 = 0 ↔ ptr.length % 4 = 0 := by omega
        rw [hmod]
        refine and_congr_right fun hmod => ?_
        rw [padded_iff hlen hmod]
        constructor
        · exact fun h => ⟨q, hq, hpad, .inr ⟨hzero, h⟩⟩
        · rintro ⟨-, -, -, h | ⟨-, h⟩⟩
          · exact absurd h hnil
          · exact h
    · -- the loop ends with the empty string
      have hpos := List.length_pos_iff.mpr hptr
      refine ⟨[], decodeLoop_reject hptr fun q rest hread hok => hgood ?_, ?_⟩
      · rw [readQuad_eq (Nat.zero_le 4)] at hread
        obtain ⟨q', hq, hsome⟩ := Option.map_eq_some_iff.mp hread
        simp only [Prod.mk.injEq] at hsome
        obtain ⟨hfour, rfl, rfl⟩ := hsome
        exact ⟨by omega, q', hq, hok⟩
      · refine iff_of_false (not_not.mpr rfl) ?_
        rintro ⟨hmod, hpadded⟩
        have hlen : 4 ≤ ptr.length := by omega
        obtain ⟨q, hq, hpad, hlast⟩ := (padded_iff hlen hmod).mp hpadded
        exact hgood ⟨hlen, q, hq, hpad, hlast.imp_right And.left⟩

end

/-- A non-empty string of whole groups of the alphabet, the last of which may end with one or two
pads. -/
structure IsBase64 (s : Bytes) : Prop where
  nonempty : s ≠ []
  groups : s.length % 4 = 0
  padded : Padded s

/-- **The decoder writes within its buffer and gives a byte just for base 64.** -/
theorem base64decode_accepts (s : Bytes) :
    ∃ r, base64decode s = .ok r ∧ (r ≠ [] ↔ IsBase64 s) := by
  by_cases hs : s = []
  · refine ⟨[], ?_, iff_of_false (not_not.mpr rfl) fun h => h.nonempty hs⟩
    rw [hs, base64decode, decodeLoop, if_pos rfl]
  · have hsize : ([] : Bytes).length + s.length * 3 / 4 ≤ s.length * 3 / 4 :=
      Nat.le_of_eq (Nat.zero_add _)
    obtain ⟨r, hr, hiff⟩ := decodeLoop_spec hs hsize
    exact ⟨r, hr, hiff.trans ⟨fun h => ⟨hs, h.1, h.2⟩, fun h => ⟨h.groups, h.padded⟩⟩⟩

end Luwu.HashUtil
