import Luwu.ByteArray.Invariant

/-!
# The byte array as a flat vector

What `ByteArray` is for: a byte vector with a cursor.  `Flat` is that vector, and `simulates` says
that every call on a `ByteArray` has the result the same call has there, whatever the block size.
-/

namespace Luwu.ByteArray

open Lib

/-- A byte vector with a cursor. -/
structure Flat where
  bytes : List UInt8
  pos : Nat
deriving DecidableEq, Repr

/-- The calls the two sides are compared on. -/
inductive Cmd where
  | write (d : List UInt8)
  | read (n : Nat)
  | setPosition (p : Nat)
  | clear
  | toString
deriving DecidableEq, Repr

/-- What a caller gets back. -/
inductive Out where
  | unit
  | bytes (d : List UInt8)
  | thrown (e : Exn)
deriving DecidableEq, Repr

namespace Flat

def empty : Flat := ⟨[], 0⟩

/-- `[pos, pos + |d|)` is overwritten, the vector extended if need be. -/
def write (f : Flat) (d : List UInt8) : Flat := ⟨splice f.bytes f.pos d, f.pos + d.length⟩

def apply (f : Flat) : Cmd → Flat × Out
  | .write d => (f.write d, .unit)
  | .read n =>
    if f.bytes.length - f.pos < n then (f, .thrown (.outOfRange "not enough length"))
    else (⟨f.bytes, f.pos + n⟩, .bytes ((f.bytes.drop f.pos).take n))
  | .setPosition p => (⟨f.bytes, p⟩, .unit)
  | .clear => (empty, .unit)
  | .toString => (f, .bytes (f.bytes.drop f.pos))

/-- Reads ask for at least one byte, seeks stay within the size. -/
def Legal (f : Flat) : Cmd → Prop
  | .read n => 1 ≤ n
  | .setPosition p => p ≤ f.bytes.length
  | _ => True

instance (f : Flat) : (c : Cmd) → Decidable (f.Legal c)
  | .read n => inferInstanceAs (Decidable (1 ≤ n))
  | .setPosition p => inferInstanceAs (Decidable (p ≤ f.bytes.length))
  | .write _ => inferInstanceAs (Decidable True)
  | .clear => inferInstanceAs (Decidable True)
  | .toString => inferInstanceAs (Decidable True)

/-- Every command is legal where it comes. -/
def LegalAll : Flat → List Cmd → Prop
  | _, [] => True
  | f, c :: cs => f.Legal c ∧ LegalAll (f.apply c).1 cs

instance instDecidableLegalAll : (f : Flat) → (cs : List Cmd) → Decidable (f.LegalAll cs)
  | _, [] => inferInstanceAs (Decidable True)
  | f, c :: cs =>
    have := instDecidableLegalAll (f.apply c).1 cs
    inferInstanceAs (Decidable (f.Legal c ∧ LegalAll (f.apply c).1 cs))

/-- The result of every command, with the size and the position after it. -/
def observe : Flat → List Cmd → List (Out × Nat × Nat)
  | _, [] => []
  | f, c :: cs =>
    let (f', out) := f.apply c
    (out, f'.bytes.length, f'.pos) :: observe f' cs

end Flat

/-- A command on the byte array; `none` is a fault. -/
def apply (b : ByteArray) : Cmd → Option (ByteArray × Out)
  | .write d => result (fun _ => .unit) (write d b)
  | .read n => result .bytes (read n b)
  | .setPosition p => result (fun _ => .unit) (setPosition p b)
  | .clear => result (fun _ => .unit) (clear b)
  | .toString => result .bytes (toString b)
where
  result {α : Type} (f : α → Out) : Outcome Fault Exn ByteArray α → Option (ByteArray × Out)
    | .ok a s => some (s, f a)
    | .thrown e s => some (s, .thrown e)
    | .fault _ => none

def observe : ByteArray → List Cmd → Option (List (Out × Nat × Nat))
  | _, [] => some []
  | b, c :: cs =>
    match b.apply c with
    | none => none
    | some (b', out) =>
      (observe b' cs).map ((out, b'.getSize, b'.getPosition) :: ·)

/-- The vector a byte array stands for. -/
def abs (b : ByteArray) : Flat := ⟨(flat b.nodes).take b.size, b.position⟩

theorem abs_length {b : ByteArray} (h : Inv b) : b.abs.bytes.length = b.size := by
  have := h.size_le
  change ((flat b.nodes).take b.size).length = b.size
  rw [List.length_take, h.length_flat]
  omega

/-- The readable bytes, as they lie in the blocks. -/
theorem abs_drop (b : ByteArray) :
    b.abs.bytes.drop b.abs.pos = ((flat b.nodes).drop b.position).take (b.size - b.position) :=
  List.drop_take

/-! ## One command -/

/-- An overwrite of the memory, grown at its end if need be, is the one of the vector. -/
theorem splice_abs {b : ByteArray} (h : Inv b) (more d : List UInt8) :
    (splice (flat b.nodes ++ more) b.position d).take (max b.size (b.position + d.length)) =
      splice b.abs.bytes b.position d := by
  have hpl := h.position_le
  have hsl := h.size_le
  have hfl := h.length_flat
  have hlen : (flat b.nodes ++ more).length = b.capacity + more.length := by
    rw [List.length_append, hfl]
  show _ = splice ((flat b.nodes).take b.size) b.position d
  by_cases hge : b.size ≤ b.position + d.length
  · rw [Nat.max_eq_right hge, take_splice_of_le (by omega) rfl,
      List.take_append_of_le_length (by omega), splice, List.take_take,
      Nat.min_eq_left (by omega), List.drop_of_length_le (by rw [List.length_take]; omega),
      List.append_nil]
  · rw [Nat.max_eq_left (by omega), take_splice_of_ge (by omega) (by omega),
      List.take_append_of_le_length (by omega)]

theorem write_abs {b : ByteArray} (h : Inv b) (d : List UInt8) :
    ∃ b', write d b = .ok () b' ∧ Inv b' ∧ b'.abs = b.abs.write d := by
  by_cases hd : d = []
  · subst hd
    refine ⟨b, rfl, h, ?_⟩
    simp [Flat.write, abs]
  · obtain ⟨b', more, hrun, hinv, -, -, hpos, hsize, hflat⟩ := write_spec h hd
    refine ⟨b', hrun, hinv, ?_⟩
    simp only [abs, Flat.write, Flat.mk.injEq]
    refine ⟨?_, hpos⟩
    rw [hflat, hsize]
    exact splice_abs h more d

theorem read_abs {b : ByteArray} (h : Inv b) {n : Nat} (hn : 1 ≤ n) :
    if b.abs.bytes.length - b.abs.pos < n then
      read n b = .thrown (.outOfRange "not enough length") b
    else
      read n b = .ok ((b.abs.bytes.drop b.abs.pos).take n) (b.advance n) ∧ Inv (b.advance n) ∧
        (b.advance n).abs = ⟨b.abs.bytes, b.abs.pos + n⟩ := by
  have hpl := h.position_le
  rw [abs_length h, read_eq h]
  change if b.size - b.position < n then _ else _
  split
  · rfl
  · rename_i hle
    refine ⟨?_, advance_inv h (by omega), rfl⟩
    rw [if_neg (by omega), abs_drop, List.take_take, Nat.min_eq_left (by omega)]

/-- The `const` read at the current position is the read that moves on. -/
theorem readAt_position (b : ByteArray) (n : Nat) :
    readAt n b.position b = (read n b).bind fun d _ => .ok d b := by
  unfold readAt read
  split
  · rfl
  · cases b.cur with
    | none => rfl
    | some i =>
      dsimp only
      cases readLoop (b.nodes.drop i) (b.position % b.baseSize) n with
      | none => rfl
      | some p => rfl

theorem toString_abs {b : ByteArray} (h : Inv b) :
    toString b = .ok (b.abs.bytes.drop b.abs.pos) b := by
  have hpl := h.position_le
  rw [abs_drop]
  unfold toString getReadSize
  split
  · rename_i hz
    rw [hz, List.take_zero]
  · rw [readAt_position, read_eq h, if_neg (by omega), if_neg (by omega)]
    rfl

theorem setPosition_abs {b : ByteArray} (h : Inv b) {p : Nat} (hp : p ≤ b.abs.bytes.length) :
    ∃ b', setPosition p b = .ok () b' ∧ Inv b' ∧ b'.abs = ⟨b.abs.bytes, p⟩ := by
  rw [abs_length h] at hp
  have hsl := h.size_le
  have hrun : setPosition p b = .ok () { b with
      position := p
      size := max b.size p
      cur := nodeAt b.nodes (p / b.baseSize) } := by
    rw [setPosition_eq h, if_neg (by omega)]
  refine ⟨_, hrun, setPosition_keeps p b h _ (by rw [hrun]; rfl), ?_⟩
  simp only [abs, Nat.max_eq_left hp]

theorem clear_abs {b : ByteArray} (h : Inv b) :
    ∃ b', clear b = .ok () b' ∧ Inv b' ∧ b'.abs = Flat.empty :=
  ⟨_, rfl, clear_keeps b h _ rfl, rfl⟩

/-- One command on the array is the same command on the vector. -/
theorem simulates {b : ByteArray} (h : Inv b) {c : Cmd} (hc : b.abs.Legal c) :
    ∃ b', b.apply c = some (b', (b.abs.apply c).2) ∧ Inv b' ∧ b'.abs = (b.abs.apply c).1 := by
  cases c with
  | write d =>
    obtain ⟨b', hrun, hinv, habs⟩ := write_abs h d
    exact ⟨b', by rw [apply, hrun]; rfl, hinv, habs⟩
  | read n =>
    have hread := read_abs h hc
    simp only [Flat.apply]
    split at hread
    · rename_i hlt
      rw [if_pos hlt]
      exact ⟨b, by rw [apply, hread]; rfl, h, rfl⟩
    · rename_i hlt
      rw [if_neg hlt]
      exact ⟨b.advance n, by rw [apply, hread.1]; rfl, hread.2.1, hread.2.2⟩
  | setPosition p =>
    obtain ⟨b', hrun, hinv, habs⟩ := setPosition_abs h hc
    exact ⟨b', by rw [apply, hrun]; rfl, hinv, habs⟩
  | clear =>
    obtain ⟨b', hrun, hinv, habs⟩ := clear_abs h
    exact ⟨b', by rw [apply, hrun]; rfl, hinv, habs⟩
  | toString => exact ⟨b, by rw [apply, toString_abs h]; rfl, h, rfl⟩

/-! ## Whole runs -/

theorem observe_eq {b : ByteArray} (h : Inv b) {cs : List Cmd} (hcs : Flat.LegalAll b.abs cs) :
    b.observe cs = some (b.abs.observe cs) := by
  induction cs generalizing b with
  | nil => rfl
  | cons c cs ih =>
    obtain ⟨b', hrun, hinv, habs⟩ := simulates h hcs.1
    have hrest := ih hinv (habs ▸ hcs.2)
    have hsize : b'.getSize = (b.abs.apply c).1.bytes.length := by
      rw [← habs, abs_length hinv]
      rfl
    have hpos : b'.getPosition = (b.abs.apply c).1.pos := by
      rw [← habs]
      rfl
    simp only [observe, hrun, hrest, Option.map_some, Flat.observe, hsize, hpos, habs]

theorem new_abs (base : Nat) (heap : Nat → UInt8) : (new base heap).abs = Flat.empty := rfl

/-- **`ByteArray` refines the flat vector.**  From a fresh array of any block size, a sequence of
legal commands returns what it returns on the vector, with the vector's size and position after
every command; the block size and the contents of fresh memory cannot be observed. -/
theorem refines_flat (base : Nat) (hb : 1 ≤ base) (heap : Nat → UInt8) (cs : List Cmd)
    (hcs : Flat.LegalAll Flat.empty cs) :
    (new base heap).observe cs = some (Flat.empty.observe cs) ∧
      ∀ base' heap', 1 ≤ base' →
        (new base' heap').observe cs = (new base heap).observe cs := by
  have hnew : ∀ base' heap', 1 ≤ base' →
      (new base' heap').observe cs = some (Flat.empty.observe cs) := fun base' heap' hb' =>
    observe_eq (new_inv hb' heap') hcs
  exact ⟨hnew base heap hb, fun base' heap' hb' => by rw [hnew base' heap' hb', hnew base heap hb]⟩

/-- An overwrite across a block boundary, a read that stops short and one that asks too much. -/
theorem refines_flat_overwrite :
    (new 2 fun _ => 0).observe
        [.write [1, 2, 3], .setPosition 1, .write [7, 8, 9], .setPosition 0, .read 2, .read 3,
          .toString] =
      some (Flat.empty.observe
        [.write [1, 2, 3], .setPosition 1, .write [7, 8, 9], .setPosition 0, .read 2, .read 3,
          .toString]) ∧
      Flat.empty.observe
        [.write [1, 2, 3], .setPosition 1, .write [7, 8, 9], .setPosition 0, .read 2, .read 3,
          .toString] =
        [(.unit, 3, 3), (.unit, 3, 1), (.unit, 4, 4), (.unit, 4, 0), (.bytes [1, 7], 4, 2),
          (.thrown (.outOfRange "not enough length"), 4, 2), (.bytes [8, 9], 4, 2)] :=
  ⟨(refines_flat 2 (by decide) (fun _ => 0) [.write [1, 2, 3], .setPosition 1, .write [7, 8, 9],
    .setPosition 0, .read 2, .read 3, .toString] (by decide)).1, by decide⟩

end Luwu.ByteArray
