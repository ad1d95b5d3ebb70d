import Mathlib.Algebra.Group.Int.Defs
import Mathlib.Logic.Function.Basic
import Luwu.Lib.Bytes

/-!
# Fixed-size transfers over calls that can fail

`readFixSize` and `writeFixSize` on a raw buffer repeat `read` or `write` until the whole length is
through.  `Socket::recv` and `Socket::send` return the `ssize_t` of the system call as a `size_t`,
so that `-1` arrives as the largest `size_t`; `len <= 0` is a test of unsigned numbers and lets it
through, and `offset += len` and `left -= len` then take one step back.

The two loops are alike (`fixSize`).  A cell is a position relative to `buffer`, modulo `2 ^ 64` as
pointers are: `buffer[-1]` is the cell `2 ^ 64 - 1`.
-/

namespace Luwu

def toSize (rt : Int) : Nat := (rt % 2 ^ 64).toNat

theorem toSize_natCast {n : Nat} (h : n < 2 ^ 64) : toSize n = n := by
  unfold toSize
  omega

theorem toSize_neg_one : toSize (-1) = 2 ^ 64 - 1 := rfl

/-- How a call that may move up to `left` bytes ends. -/
inductive Reply where
  /-- It moves `k + 1` bytes, or `left` if these are fewer. -/
  | moved (k : Nat)
  /-- The end of the stream: it returns 0. -/
  | zero
  /-- It returns `-1`. -/
  | failed
deriving DecidableEq, Repr

namespace Reply

/-- The bytes the call moves. -/
def count (left : Nat) : Reply → Nat
  | moved k => min (k + 1) left
  | zero => 0
  | failed => 0

/-- The `ssize_t` the call returns. -/
def result (left : Nat) : Reply → Int
  | moved k => (min (k + 1) left : Nat)
  | zero => 0
  | failed => -1

/-- The bytes the call would move if it were asked for enough. -/
def supply : Reply → Nat
  | moved k => k + 1
  | zero => 0
  | failed => 0

def isMoved : Reply → Bool
  | moved _ => true
  | zero => false
  | failed => false

end Reply

/-! ## The loop -/

/-- The local variables of the loop, and the cells it has accessed, in the order in which their
bytes went through the stream. -/
structure Transfer where
  offset : Nat
  left : Nat
  cells : List Nat
deriving DecidableEq, Repr

inductive Progress where
  | running (t : Transfer)
  | returned (v : Nat) (cells : List Nat)
deriving DecidableEq, Repr

namespace Progress

def cells : Progress → List Nat
  | running t => t.cells
  | returned _ cells => cells

def value? : Progress → Option Nat
  | running _ => none
  | returned v _ => some v

end Progress

/-- The cells that a call at `offset` accesses when it moves `count` bytes. -/
def window (offset count : Nat) : List Nat :=
  (List.range count).map fun i => (offset + i) % 2 ^ 64

/-- `while (left > 0)`, and `return length` behind the loop. -/
def whileLeft (length : Nat) (t : Transfer) : Progress :=
  if 0 < t.left then .running t else .returned length t.cells

def turn (length : Nat) (t : Transfer) (r : Reply) : Progress :=
  let len := toSize (r.result t.left)
  let cells := t.cells ++ window t.offset (r.count t.left)
  if len ≤ 0 then .returned len cells
  else whileLeft length
    { offset := (t.offset + len) % 2 ^ 64, left := (t.left + (2 ^ 64 - len)) % 2 ^ 64, cells }

/-- The loop after at most `n` calls, the `i`-th of which ends as `replies i` says. -/
def fixSize (length : Nat) (replies : Nat → Reply) : Nat → Progress
  | 0 => whileLeft length { offset := 0, left := length, cells := [] }
  | n + 1 =>
    match fixSize length replies n with
    | .running t => turn length t (replies n)
    | .returned v cells => .returned v cells

/-- The bytes from the `i`-th on that the peer has sent go into the cells. -/
def place (input : Nat → UInt8) : Nat → List Nat → (Nat → UInt8) → Nat → UInt8
  | _, [], buffer => buffer
  | i, c :: cells, buffer => place input (i + 1) cells (Function.update buffer c (input i))

/-- `readFixSize (buffer, length)` after at most `n` calls of `read`: what it has returned, and the
memory at `buffer`. -/
def readFixSize (length : Nat) (replies : Nat → Reply) (input buffer : Nat → UInt8) (n : Nat) :
    Option Nat × (Nat → UInt8) :=
  let p := fixSize length replies n
  (p.value?, place input 0 p.cells buffer)

/-- `writeFixSize (buffer, length)` after at most `n` calls of `write`: what it has returned, and
the bytes that the peer has been sent. -/
def writeFixSize (length : Nat) (replies : Nat → Reply) (buffer : Nat → UInt8) (n : Nat) :
    Option Nat × Bytes :=
  let p := fixSize length replies n
  (p.value?, p.cells.map buffer)

/-! ## Calls that do not fail -/

/-- The bytes that the first `n` calls can move. -/
def supplied (replies : Nat → Reply) : Nat → Nat
  | 0 => 0
  | n + 1 => supplied replies n + (replies n).supply

/-- Call `k` is the first that moves nothing, and bytes are missing. -/
structure StopsAt (length : Nat) (replies : Nat → Reply) (k : Nat) : Prop where
  before : ∀ j < k, (replies j).isMoved = true
  here : (replies k).isMoved = false
  missing : supplied replies k < length

variable {length : Nat} {replies : Nat → Reply} {n k : Nat}

theorem window_eq {offset count : Nat} (h : offset + count ≤ 2 ^ 64) :
    window offset count = (List.range count).map (offset + ·) := by
  unfold window
  apply List.map_congr_left
  intro i hi
  have := List.mem_range.mp hi
  exact Nat.mod_eq_of_lt (by omega)

theorem turn_moved (hlength : length < 2 ^ 64) {offset : Nat} (hoff : offset < length) (j : Nat) :
    turn length ⟨offset, length - offset, List.range offset⟩ (.moved j) =
      if offset + (j + 1) < length then
        .running ⟨offset + (j + 1), length - (offset + (j + 1)), List.range (offset + (j + 1))⟩
      else .returned length (List.range length) := by
  have hlen : toSize ((Reply.moved j).result (length - offset)) = min (j + 1) (length - offset) :=
    toSize_natCast (by omega)
  have hcells : List.range offset ++ window offset ((Reply.moved j).count (length - offset)) =
      List.range (offset + min (j + 1) (length - offset)) := by
    rw [List.range_add]
    exact congrArg _ (window_eq (show offset + min (j + 1) (length - offset) ≤ 2 ^ 64 by omega))
  unfold turn
  dsimp only
  rw [hlen, hcells, if_neg (by omega)]
  unfold whileLeft
  dsimp only
  by_cases hlt : offset + (j + 1) < length
  · -- `left` stays positive, and no sum wraps around
    rw [if_pos hlt, if_pos (by omega), show min (j + 1) (length - offset) = j + 1 by omega]
    congr 2
    · omega
    · omega
  · rw [if_neg hlt, if_neg (by omega),
      show offset + min (j + 1) (length - offset) = length by omega]

/-- As long as every call moves bytes, the buffer is filled from its start. -/
theorem fixSize_moved (hlength : length < 2 ^ 64) (h : ∀ j < n, (replies j).isMoved = true) :
    fixSize length replies n =
      if supplied replies n < length then
        .running ⟨supplied replies n, length - supplied replies n,
          List.range (supplied replies n)⟩
      else .returned length (List.range length) := by
  induction n with
  | zero =>
    show (if 0 < length then _ else _) = if 0 < length then _ else _
    by_cases hz : 0 < length
    · rw [if_pos hz, if_pos hz]
      rfl
    · rw [if_neg hz, if_neg hz, show length = 0 by omega]
      rfl
  | succ n ih =>
    have hbefore := ih fun j hj => h j (by omega)
    rw [fixSize, hbefore]
    -- another call, or the buffer is full
    by_cases hlt : supplied replies n < length
    · rw [if_pos hlt]
      cases hr : replies n with
      | moved j =>
        show turn length _ (.moved j) = _
        rw [turn_moved hlength hlt j, supplied, hr]
        rfl
      | zero => exact absurd (h n (by omega)) (by rw [hr]; decide)
      | failed => exact absurd (h n (by omega)) (by rw [hr]; decide)
    · rw [if_neg hlt, supplied, if_neg (by omega)]

theorem fixSize_returned {v : Nat} {cells : List Nat}
    (h : fixSize length replies n = .returned v cells) (m : Nat) :
    fixSize length replies (n + m) = .returned v cells := by
  induction m with
  | zero => exact h
  | succ m ih => rw [← Nat.add_assoc, fixSize, ih]

theorem fixSize_zero (hlength : length < 2 ^ 64) (h : StopsAt length replies k)
    (hz : replies k = .zero) :
    fixSize length replies (k + 1) = .returned 0 (List.range (supplied replies k)) := by
  rw [fixSize, fixSize_moved hlength h.before, if_pos h.missing, hz]
  show Progress.returned 0 (List.range (supplied replies k) ++ window _ 0) = _
  rw [show window (supplied replies k) 0 = [] from rfl, List.append_nil]

/-- After a call that returns `-1` the loop goes on, or returns the whole length. -/
theorem fixSize_failed (hlength : length < 2 ^ 64) (h : StopsAt length replies k)
    (hf : replies k = .failed) :
    ∃ t, fixSize length replies (k + 1) = whileLeft length t := by
  rw [fixSize, fixSize_moved hlength h.before, if_pos h.missing, hf]
  exact ⟨_, rfl⟩

/-- Unless a call moves nothing too early, the bytes are all supplied after some calls. -/
theorem exists_supplied (h : ¬ ∃ k, StopsAt length replies k) :
    ∃ n, (∀ j < n, (replies j).isMoved = true) ∧ length ≤ supplied replies n := by
  by_contra hnone
  have hlt : ∀ n, (∀ j < n, (replies j).isMoved = true) → supplied replies n < length := by
    intro n hn
    by_contra hge
    exact hnone ⟨n, hn, by omega⟩
  -- every call moves a byte, so that `length` calls supply at least `length` bytes
  have hmoved : ∀ n, (∀ j < n, (replies j).isMoved = true) ∧ n ≤ supplied replies n := by
    intro n
    induction n with
    | zero => exact ⟨fun j hj => absurd hj (Nat.not_lt_zero j), Nat.zero_le _⟩
    | succ n ih =>
      have hhere : (replies n).isMoved = true := by
        by_contra hno
        exact h ⟨n, ih.1, Bool.eq_false_iff.mpr hno, hlt n ih.1⟩
      constructor
      · intro j hj
        by_cases hjn : j = n
        · rw [hjn]
          exact hhere
        · exact ih.1 j (by omega)
      · rw [supplied]
        cases hr : replies n with
        | moved i =>
          show n + 1 ≤ supplied replies n + (i + 1)
          omega
        | zero => exact absurd hhere (by rw [hr]; decide)
        | failed => exact absurd hhere (by rw [hr]; decide)
  have hend := hmoved length
  have := hlt length hend.1
  omega

theorem supplied_mono (h : n ≤ k) : supplied replies n ≤ supplied replies k := by
  induction k with
  | zero => exact Nat.le_of_eq (by rw [show n = 0 by omega])
  | succ k ih =>
    by_cases hk : n = k + 1
    · exact Nat.le_of_eq (by rw [hk])
    · rw [supplied]
      have := ih (by omega)
      omega

/-- The cells the loop accesses when it ends at a call that returns 0. -/
theorem cells_of_zero (hlength : length < 2 ^ 64) (h : StopsAt length replies k)
    (hz : replies k = .zero) (n : Nat) :
    ∃ m < length, (fixSize length replies n).cells = List.range m := by
  by_cases hn : n ≤ k
  · have hlt : supplied replies n < length := Nat.lt_of_le_of_lt (supplied_mono hn) h.missing
    refine ⟨supplied replies n, hlt, ?_⟩
    rw [fixSize_moved hlength fun j hj => h.before j (by omega), if_pos hlt]
    rfl
  · refine ⟨supplied replies k, h.missing, ?_⟩
    have hend := fixSize_returned (fixSize_zero hlength h hz) (n - (k + 1))
    rw [show k + 1 + (n - (k + 1)) = n by omega] at hend
    rw [hend]
    rfl

/-- The cells the loop accesses when all bytes are supplied. -/
theorem cells_of_supplied (hlength : length < 2 ^ 64) (hk : ∀ j < k, (replies j).isMoved = true)
    (hfull : length ≤ supplied replies k) (n : Nat) :
    ∃ m ≤ length, (fixSize length replies n).cells = List.range m := by
  by_cases hn : n ≤ k
  · rw [fixSize_moved hlength fun j hj => hk j (by omega)]
    by_cases hlt : supplied replies n < length
    · rw [if_pos hlt]
      exact ⟨_, Nat.le_of_lt hlt, rfl⟩
    · rw [if_neg hlt]
      exact ⟨_, Nat.le_refl length, rfl⟩
  · have hend := fixSize_moved hlength hk
    rw [if_neg (by omega)] at hend
    have hstay := fixSize_returned hend (n - k)
    rw [show k + (n - k) = n by omega] at hstay
    rw [hstay]
    exact ⟨length, Nat.le_refl length, rfl⟩

/-! ## What a fixed-size transfer is to do -/

/-- The loop stops at the first call that moves nothing, with a result that `<= 0` recognises; it
accesses the buffer only; it comes to an end; and when no call stops it, it returns the length, and
the bytes are where they should be (`done`). -/
structure Transfers (length : Nat) (replies : Nat → Reply) (value : Nat → Option Nat)
    (cells : Nat → List Nat) (done : Nat → Prop) : Prop where
  stops : ∀ k, StopsAt length replies k → ∃ v, value (k + 1) = some v ∧ v ≤ 0
  inside : ∀ n, ∀ c ∈ cells n, c < length
  ends : ∃ n v, value n = some v
  completes : (¬ ∃ k, StopsAt length replies k) → ∃ n, value n = some length ∧ done n

/-- `readFixSize` puts the bytes of the peer into the buffer, in order. -/
def ReadsFixed (length : Nat) (replies : Nat → Reply) (input buffer : Nat → UInt8) : Prop :=
  Transfers length replies (fun n => (readFixSize length replies input buffer n).1)
    (fun n => (fixSize length replies n).cells)
    (fun n => ∀ i < length, (readFixSize length replies input buffer n).2 i = input i)

/-- `writeFixSize` sends the bytes of the buffer, in order. -/
def WritesFixed (length : Nat) (replies : Nat → Reply) (buffer : Nat → UInt8) : Prop :=
  Transfers length replies (fun n => (writeFixSize length replies buffer n).1)
    (fun n => (fixSize length replies n).cells)
    (fun n => (writeFixSize length replies buffer n).2 = (List.range length).map buffer)

/-- The loop does what it is to do exactly when no call fails too early. -/
theorem transfers_iff (hlength : length < 2 ^ 64) {done : Nat → Prop}
    (hdone : ∀ n, (fixSize length replies n).cells = List.range length → done n) :
    Transfers length replies (fun n => (fixSize length replies n).value?)
        (fun n => (fixSize length replies n).cells) done ↔
      ∀ k, StopsAt length replies k → replies k = .zero := by
  constructor
  · intro h k hk
    cases hr : replies k with
    | moved j =>
      have hhere := hk.here
      rw [hr] at hhere
      cases hhere
    | zero => rfl
    | failed =>
      -- the loop has gone on, or it has returned the length
      obtain ⟨t, ht⟩ := fixSize_failed hlength hk hr
      obtain ⟨v, hv, hle⟩ := h.stops k hk
      have hmissing := hk.missing
      rw [ht] at hv
      unfold whileLeft at hv
      split at hv
      · cases hv
      · cases hv
        omega
  · intro h
    by_cases hstop : ∃ k, StopsAt length replies k
    · obtain ⟨k, hk⟩ := hstop
      have hz := h k hk
      have hend := fixSize_zero hlength hk hz
      refine ⟨?_, ?_, ⟨k + 1, 0, by rw [hend]; rfl⟩, fun hno => absurd ⟨k, hk⟩ hno⟩
      · intro k' hk'
        rw [fixSize_zero hlength hk' (h k' hk')]
        exact ⟨0, rfl, Nat.le_refl 0⟩
      · intro n c hc
        obtain ⟨m, hm, hcells⟩ := cells_of_zero hlength hk hz n
        rw [hcells] at hc
        have := List.mem_range.mp hc
        omega
    · obtain ⟨m, hm, hfull⟩ := exists_supplied hstop
      have hend := fixSize_moved hlength hm
      rw [if_neg (by omega)] at hend
      have hvalue : (fixSize length replies m).value? = some length := by rw [hend]; rfl
      refine ⟨fun k hk => absurd ⟨k, hk⟩ hstop, ?_, ⟨m, length, hvalue⟩,
        fun _ => ⟨m, hvalue, hdone m (by rw [hend]; rfl)⟩⟩
      intro n c hc
      obtain ⟨m', hm', hcells⟩ := cells_of_supplied hlength hm hfull n
      rw [hcells] at hc
      have := List.mem_range.mp hc
      omega

theorem place_of_not_mem {input buffer : Nat → UInt8} {i c : Nat} {cells : List Nat}
    (h : c ∉ cells) : place input i cells buffer c = buffer c := by
  induction cells generalizing i buffer with
  | nil => rfl
  | cons c' cells ih =>
    rw [place, ih fun hc => h (List.mem_cons_of_mem c' hc)]
    exact Function.update_of_ne (fun hc => h (by rw [hc]; exact List.mem_cons_self)) _ _

theorem place_range' {input buffer : Nat → UInt8} {i count c : Nat} (hge : i ≤ c)
    (hlt : c < i + count) : place input i (List.range' i count) buffer c = input c := by
  induction count generalizing i buffer with
  | zero => omega
  | succ count ih =>
    rw [List.range'_succ, place]
    by_cases hc : c = i
    · rw [hc, place_of_not_mem (by rw [List.mem_range'_1]; omega), Function.update_self]
    · exact ih (by omega) (by omega)

/-- **Fixed-size transfers.**  `readFixSize` and `writeFixSize` stop at the first call that moves
nothing and report it, stay inside the buffer, end, and otherwise move the whole length in order,
exactly when no call returns `-1` before the bytes are through or a call returns 0. -/
theorem fixSize_transfers_iff (length : Nat) (hlength : length < 2 ^ 64) (replies : Nat → Reply)
    (input buffer : Nat → UInt8) :
    (ReadsFixed length replies input buffer ↔
      ∀ k, StopsAt length replies k → replies k = .zero) ∧
    (WritesFixed length replies buffer ↔
      ∀ k, StopsAt length replies k → replies k = .zero) := by
  constructor
  · refine transfers_iff hlength ?_
    intro n hcells i hi
    show place input 0 (fixSize length replies n).cells buffer i = input i
    rw [hcells, List.range_eq_range']
    exact place_range' (Nat.zero_le i) (by omega)
  · refine transfers_iff hlength ?_
    intro n hcells
    show (fixSize length replies n).cells.map buffer = _
    rw [hcells]

/-- Two portions of two bytes. -/
theorem fixSize_transfers_four :
    ReadsFixed 4 (fun _ => .moved 1) (fun i => UInt8.ofNat i) (fun _ => 0) :=
  (fixSize_transfers_iff 4 (by decide) _ _ _).1.mpr fun _ h => absurd h.here (by decide)

/-- A connection that is reset before the first byte: the loop goes on, at `buffer[-1]`. -/
theorem fixSize_transfers_reset :
    ¬ ∀ (length : Nat), length < 2 ^ 64 → ∀ (replies : Nat → Reply) (input buffer : Nat → UInt8),
      ReadsFixed length replies input buffer ∧ WritesFixed length replies buffer := by
  intro h
  have hread := (h 1 (by decide) (fun n => if n = 0 then .failed else .moved 0) (fun _ => 0)
    (fun _ => 0)).1
  have hout := hread.inside 2 (2 ^ 64 - 1) (by decide)
  exact absurd hout (by decide)

end Luwu
