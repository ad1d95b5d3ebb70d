import Luwu.Lib.Bytes

/-!
# Byte streams

`Stream` with its fixed-size helpers, over a peer that delivers bytes in order and in portions of
any size.  `read` and `write` move at least one byte as long as there are bytes to read or the peer
takes any; `readFixSize` and `writeFixSize` loop until the whole length is through, and return 0
when a `read` or `write` does.  They also return 0 for the length 0.
-/

namespace Luwu

/-- One end of a byte stream. -/
structure Stream where
  /-- The bytes that have not been read yet; the stream ends after them. -/
  input : Bytes
  /-- The bytes written. -/
  output : Bytes := []
  /-- Bounds, less one, on the bytes that the next calls of `read` return; no bound at the end. -/
  sizes : List Nat := []
  /-- Bounds, less one, on the bytes that the next calls of `write` take. -/
  room : List Nat := []
  /-- Whether the peer takes what is written. -/
  writable : Bool := true
  closed : Bool := false
deriving DecidableEq, Repr

namespace Stream

variable {s : Stream}

/-- How many of `n` bytes a call moves. -/
def portion (sizes : List Nat) (n : Nat) : Nat :=
  match sizes with
  | [] => n
  | k :: _ => min n (k + 1)

theorem portion_pos (sizes : List Nat) {n : Nat} (hn : 0 < n) : 0 < portion sizes n := by
  unfold portion
  split <;> omega

theorem portion_le (sizes : List Nat) (n : Nat) : portion sizes n ≤ n := by
  unfold portion
  split <;> omega

/-- `read (buffer, length)`: the bytes read, none at the end of the stream. -/
def read (s : Stream) (length : Nat) : Bytes × Stream :=
  let n := portion s.sizes length
  (s.input.take n, { s with input := s.input.drop n, sizes := s.sizes.tail })

/-- `write (buffer, length)`: the number of bytes taken. -/
def write (s : Stream) (buffer : Bytes) : Nat × Stream :=
  if s.writable then
    let n := portion s.room buffer.length
    (n, { s with output := s.output ++ buffer.take n, room := s.room.tail })
  else (0, s)

def close (s : Stream) : Stream := { s with closed := true }

/-- The loop of `readFixSize`: the bytes, or `none` when a `read` returns 0. -/
def readLoop (s : Stream) (left : Nat) (buffer : Bytes) : Option Bytes × Stream :=
  if left = 0 then (some buffer, s)
  else
    if (s.read left).1 = [] then (none, (s.read left).2)
    else readLoop (s.read left).2 (left - (s.read left).1.length) (buffer ++ (s.read left).1)
termination_by left
decreasing_by
  rename_i hne
  have := List.length_pos_iff.mpr hne
  omega

/-- `readFixSize (buffer, length)`: what it returns, and the bytes it has put into the buffer when
that is the length. -/
def readFixSize (s : Stream) (length : Nat) : Nat × Bytes × Stream :=
  match s.readLoop length [] with
  | (some d, s') => (length, d, s')
  | (none, s') => (0, [], s')

/-- The loop of `writeFixSize`: whether all bytes have been taken. -/
def writeLoop (s : Stream) (buffer : Bytes) : Bool × Stream :=
  if buffer = [] then (true, s)
  else
    if (s.write buffer).1 = 0 then (false, (s.write buffer).2)
    else writeLoop (s.write buffer).2 (buffer.drop (s.write buffer).1)
termination_by buffer.length
decreasing_by
  rename_i hne _
  have := List.length_pos_iff.mpr hne
  rw [List.length_drop]
  omega

def writeFixSize (s : Stream) (buffer : Bytes) : Nat × Stream :=
  match s.writeLoop buffer with
  | (true, s') => (buffer.length, s')
  | (false, s') => (0, s')

/-! ## What the helpers do -/

/-- The loop reads on until the length is through, in whatever portions. -/
theorem readLoop_ok (left : Nat) (buffer : Bytes) (h : left ≤ s.input.length) :
    ∃ sizes, s.readLoop left buffer =
      (some (buffer ++ s.input.take left), { s with input := s.input.drop left, sizes }) := by
  induction left using Nat.strongRecOn generalizing s buffer with
  | ind left ih =>
    rw [readLoop]
    by_cases hz : left = 0
    · rw [if_pos hz, hz]
      exact ⟨s.sizes, by simp⟩
    · rw [if_neg hz]
      have hpos := portion_pos s.sizes (Nat.pos_of_ne_zero hz)
      have hle := portion_le s.sizes left
      have hlen : (s.read left).1.length = portion s.sizes left := by
        change (s.input.take _).length = _
        rw [List.length_take]
        omega
      have hne : ¬ (s.read left).1 = [] := by
        intro hnil
        rw [hnil, List.length_nil] at hlen
        omega
      rw [if_neg hne, hlen]
      -- what is left goes down by the portion that came
      obtain ⟨sizes, hrest⟩ := ih (left - portion s.sizes left) (by omega)
        (buffer ++ (s.read left).1) (s := (s.read left).2) (by
          change _ ≤ (s.input.drop _).length
          rw [List.length_drop]
          omega)
      refine ⟨sizes, hrest.trans ?_⟩
      change (some (buffer ++ s.input.take _ ++ (s.input.drop _).take _),
        ({ s with input := (s.input.drop _).drop _, sizes } : Stream)) = _
      rw [List.append_assoc, ← List.take_add, List.drop_drop, Nat.add_sub_cancel' hle]

theorem readLoop_short (left : Nat) (buffer : Bytes) (h : s.input.length < left) :
    ∃ sizes, s.readLoop left buffer = (none, { s with input := [], sizes }) := by
  induction left using Nat.strongRecOn generalizing s buffer with
  | ind left ih =>
    rw [readLoop, if_neg (by omega)]
    have hpos := portion_pos s.sizes (Nat.lt_of_le_of_lt (Nat.zero_le _) h)
    have hle := portion_le s.sizes left
    -- the end of the stream is here, or further on
    by_cases hnil : s.input = []
    · have hread : (s.read left).1 = [] := by
        change s.input.take _ = []
        rw [hnil, List.take_nil]
      rw [if_pos hread]
      refine ⟨s.sizes.tail, ?_⟩
      change (none, ({ s with input := s.input.drop _, sizes := s.sizes.tail } : Stream)) = _
      rw [hnil, List.drop_nil]
    · have hin := List.length_pos_iff.mpr hnil
      have hlen : (s.read left).1.length = min (portion s.sizes left) s.input.length := by
        change (s.input.take _).length = _
        rw [List.length_take]
      have hne : ¬ (s.read left).1 = [] := by
        intro hnil'
        rw [hnil', List.length_nil] at hlen
        omega
      rw [if_neg hne, hlen]
      obtain ⟨sizes, hrest⟩ := ih (left - min (portion s.sizes left) s.input.length) (by omega)
        (buffer ++ (s.read left).1) (s := (s.read left).2) (by
          change (s.input.drop _).length < _
          rw [List.length_drop]
          omega)
      exact ⟨sizes, hrest⟩

/-- **`readFixSize` of bytes that are there.** -/
theorem readFixSize_ok {n : Nat} (h : n ≤ s.input.length) :
    ∃ sizes, s.readFixSize n =
      (n, s.input.take n, { s with input := s.input.drop n, sizes }) := by
  obtain ⟨sizes, hloop⟩ := readLoop_ok (s := s) n [] h
  refine ⟨sizes, ?_⟩
  rw [readFixSize, hloop]
  rfl

/-- **`readFixSize` at the end of the stream.** -/
theorem readFixSize_short {n : Nat} (h : s.input.length < n) :
    ∃ sizes, s.readFixSize n = (0, [], { s with input := [], sizes }) := by
  obtain ⟨sizes, hloop⟩ := readLoop_short (s := s) n [] h
  refine ⟨sizes, ?_⟩
  rw [readFixSize, hloop]

theorem writeLoop_ok (hw : s.writable = true) (buffer : Bytes) :
    ∃ room, s.writeLoop buffer = (true, { s with output := s.output ++ buffer, room }) := by
  induction hn : buffer.length using Nat.strongRecOn generalizing s buffer with
  | ind n ih =>
    rw [writeLoop]
    by_cases hnil : buffer = []
    · rw [if_pos hnil, hnil]
      exact ⟨s.room, by simp⟩
    · rw [if_neg hnil]
      have hin := List.length_pos_iff.mpr hnil
      have hpos := portion_pos s.room hin
      have hle := portion_le s.room buffer.length
      have hwrite : s.write buffer = (portion s.room buffer.length,
          { s with output := s.output ++ buffer.take (portion s.room buffer.length),
                   room := s.room.tail }) := by
        rw [write, if_pos hw]
      rw [hwrite]
      rw [if_neg (Nat.ne_of_gt hpos)]
      obtain ⟨room, hrest⟩ := ih (buffer.drop (portion s.room buffer.length)).length
        (by rw [List.length_drop]; omega)
        (s := { s with output := s.output ++ buffer.take (portion s.room buffer.length),
                       room := s.room.tail }) hw _ rfl
      refine ⟨room, hrest.trans ?_⟩
      simp only [List.append_assoc, List.take_append_drop]

/-- **`writeFixSize` to a peer that takes the bytes.** -/
theorem writeFixSize_ok (hw : s.writable = true) (buffer : Bytes) :
    ∃ room, s.writeFixSize buffer =
      (buffer.length, { s with output := s.output ++ buffer, room }) := by
  obtain ⟨room, hloop⟩ := writeLoop_ok hw buffer
  refine ⟨room, ?_⟩
  rw [writeFixSize, hloop]

theorem writeFixSize_nil (s : Stream) : s.writeFixSize [] = (0, s) := by
  rw [writeFixSize, writeLoop, if_pos rfl]
  rfl

theorem writeFixSize_unwritable (hw : s.writable = false) (buffer : Bytes) :
    s.writeFixSize buffer = (0, s) := by
  by_cases hnil : buffer = []
  · rw [hnil, writeFixSize_nil]
  · have hwrite : s.write buffer = (0, s) := by
      rw [write, if_neg (by rw [hw]; exact Bool.false_ne_true)]
    rw [writeFixSize, writeLoop, if_neg hnil, hwrite]
    rfl

/-! ## What is left to read -/

theorem readFixSize_length_le (s : Stream) (n : Nat) : (s.readFixSize n).2.1.length ≤ n := by
  by_cases h : n ≤ s.input.length
  · obtain ⟨sizes, hread⟩ := readFixSize_ok h
    rw [hread]
    exact List.length_take_le n s.input
  · obtain ⟨sizes, hread⟩ := readFixSize_short (Nat.lt_of_not_le h)
    rw [hread]
    exact Nat.zero_le n

theorem readFixSize_input_length (s : Stream) (n : Nat) :
    (s.readFixSize n).2.2.input.length = s.input.length - n := by
  by_cases h : n ≤ s.input.length
  · obtain ⟨sizes, hread⟩ := readFixSize_ok h
    rw [hread]
    exact List.length_drop
  · obtain ⟨sizes, hread⟩ := readFixSize_short (Nat.lt_of_not_le h)
    rw [hread]
    change 0 = _
    omega

theorem readFixSize_input_le (s : Stream) (n : Nat) :
    (s.readFixSize n).2.2.input.length ≤ s.input.length := by
  rw [readFixSize_input_length]
  exact Nat.sub_le _ _

/-- A call that reports a length has read it. -/
theorem length_of_readFixSize_pos {n : Nat} (s : Stream) (h : 0 < (s.readFixSize n).1) :
    0 < n ∧ n ≤ s.input.length := by
  by_cases hn : n ≤ s.input.length
  · obtain ⟨sizes, hread⟩ := readFixSize_ok hn
    rw [hread] at h
    exact ⟨h, hn⟩
  · obtain ⟨sizes, hread⟩ := readFixSize_short (Nat.lt_of_not_le hn)
    rw [hread] at h
    exact absurd h (Nat.lt_irrefl 0)

theorem readFixSize_input_lt {n : Nat} (s : Stream) (h : 0 < (s.readFixSize n).1) :
    (s.readFixSize n).2.2.input.length < s.input.length := by
  have hn := length_of_readFixSize_pos s h
  rw [readFixSize_input_length]
  omega

theorem write_input (s : Stream) (buffer : Bytes) : (s.write buffer).2.input = s.input := by
  unfold write
  split <;> rfl

theorem writeLoop_input (s : Stream) (buffer : Bytes) :
    (s.writeLoop buffer).2.input = s.input := by
  induction s, buffer using writeLoop.induct with
  | case1 s =>
    rw [writeLoop, if_pos rfl]
  | case2 s buffer hne hz =>
    rw [writeLoop, if_neg hne, if_pos hz]
    exact write_input s buffer
  | case3 s buffer hne hz ih =>
    rw [writeLoop, if_neg hne, if_neg hz]
    exact ih.trans (write_input s buffer)

theorem writeFixSize_input (s : Stream) (buffer : Bytes) :
    (s.writeFixSize buffer).2.input = s.input := by
  have hloop := s.writeLoop_input buffer
  unfold writeFixSize
  split
  · next h =>
    rw [h] at hloop
    exact hloop
  · next h =>
    rw [h] at hloop
    exact hloop

end Stream

end Luwu
