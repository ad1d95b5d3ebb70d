import Luwu.ByteArray.Flat

/-!
# Reading at a position of one's own

`read (buf, size, position) const` takes its offset from `position`, but counts the bytes that are
left, and starts to walk, from `m_position`.  It finds the bytes of `position` where the two lie in
one block, and elsewhere only by coincidence.
-/

namespace Luwu.ByteArray

open Lib

/-- The `n` bytes of the memory from `start` on. -/
def memoryAt (b : ByteArray) (start n : Nat) : List UInt8 := ((flat b.nodes).drop start).take n

/-- Where the const `read` begins: the offset of `position` in the block of `m_cur`. -/
def foundAt (b : ByteArray) (position : Nat) : Nat :=
  b.position / b.baseSize * b.baseSize + position % b.baseSize

/-- The const `read` of `n` bytes at `p`: it stores `[p, p + n)`, as a seek and a read do, when the
array has these bytes, and throws when it does not. -/
def ReadsAt (b : ByteArray) (p n : Nat) : Prop :=
  if p + n ≤ b.getSize then
    readAt n p b = .ok ((b.abs.bytes.drop p).take n) b ∧
      ∃ b', (setPosition p >>= fun _ => read n) b = .ok ((b.abs.bytes.drop p).take n) b'
  else ∃ what, readAt n p b = .thrown (.outOfRange what) b

section

variable {b : ByteArray} {p n : Nat}

theorem slice_abs (hfit : p + n ≤ b.size) :
    (b.abs.bytes.drop p).take n = b.memoryAt p n := by
  show (((flat b.nodes).take b.size).drop p).take n = _
  rw [List.drop_take, List.take_take, Nat.min_eq_left (by omega)]
  rfl

theorem readAt_eq (h : Inv b) (hn : 1 ≤ n) :
    readAt n p b =
      if b.getReadSize < n then .thrown (.outOfRange "not enough length") b
      else if b.foundAt p + n ≤ b.capacity then .ok (b.memoryAt (b.foundAt p) n) b
      else .fault .nullDeref := by
  have hsl := h.size_le
  have hread : b.getReadSize = b.size - b.position := rfl
  unfold readAt
  by_cases hlt : b.getReadSize < n
  · rw [if_pos hlt, if_pos hlt]
  · rw [if_neg hlt, if_neg hlt]
    have hpc : b.position < b.capacity := by omega
    have hblock : b.position / b.baseSize * b.baseSize ≤ b.capacity := by
      have := Inv.position_split b
      omega
    have hrest := h.rest_capacity
    have huni := h.uniform.drop (b.position / b.baseSize)
    rw [h.cur_some hpc]
    dsimp only
    unfold foundAt
    by_cases hfit : b.position / b.baseSize * b.baseSize + p % b.baseSize + n ≤ b.capacity
    · rw [if_pos hfit, readLoop_eq huni (h.mod_lt p) (by omega), h.uniform.flat_drop,
        List.drop_drop]
      rfl
    · rw [if_neg hfit, (readLoop_eq_none huni (h.mod_lt p)).mpr (by omega)]

theorem seek_read (h : Inv b) (hn : 1 ≤ n) (hfit : p + n ≤ b.size) :
    ∃ b', (setPosition p >>= fun _ => read n) b = .ok (b.memoryAt p n) b' := by
  have hsl := h.size_le
  rw [Prog.bind_apply, setPosition_eq h, if_neg (by omega), Outcome.bind_ok]
  -- the array behind the seek
  generalize hs : ({ b with
    position := p, size := max b.size p, cur := nodeAt b.nodes (p / b.baseSize) } : ByteArray) = s
  have hrun : setPosition p b = .ok () s := by rw [setPosition_eq h, if_neg (by omega), hs]
  have hinv : Inv s := setPosition_keeps p b h s (by rw [hrun]; rfl)
  have hpos : s.position = p := by rw [← hs]
  have hsize : s.size = max b.size p := by rw [← hs]
  have hnodes : s.nodes = b.nodes := by rw [← hs]
  rw [read_eq hinv, hpos, hsize, hnodes, if_neg (by omega), if_neg (by omega)]
  exact ⟨_, rfl⟩

theorem foundAt_same (hblock : p / b.baseSize = b.position / b.baseSize) : b.foundAt p = p := by
  unfold foundAt
  rw [← hblock, Nat.mul_comm]
  exact Nat.div_add_mod _ _

theorem readsAt_iff (h : Inv b) (hn : 1 ≤ n) :
    ReadsAt b p n ↔
      (p + n ≤ b.getSize ↔ n ≤ b.getReadSize) ∧
        (p + n ≤ b.getSize → p / b.baseSize = b.position / b.baseSize ∨
          b.foundAt p + n ≤ b.capacity ∧ b.memoryAt (b.foundAt p) n = b.memoryAt p n) := by
  have hsl := h.size_le
  unfold ReadsAt
  rw [readAt_eq h hn]
  by_cases hfit : p + n ≤ b.getSize
  · rw [if_pos hfit, slice_abs hfit]
    by_cases hread : b.getReadSize < n
    · -- the bytes are there, but not behind `m_position`
      rw [if_pos hread]
      exact iff_of_false (fun hc => by cases hc.1) (fun hc => by have := hc.1.mp hfit; omega)
    · rw [if_neg hread]
      have hcond : p + n ≤ b.getSize ↔ n ≤ b.getReadSize := iff_of_true hfit (by omega)
      constructor
      · intro hc
        refine ⟨hcond, fun _ => .inr ?_⟩
        obtain ⟨hrun, -⟩ := hc
        split at hrun
        · rename_i hroom
          exact ⟨hroom, (Outcome.ok.inj hrun).1⟩
        · cases hrun
      · intro hc
        refine ⟨?_, seek_read h hn hfit⟩
        rcases hc.2 hfit with hblock | ⟨hroom, hsame⟩
        · have hfit' : p + n ≤ b.size := hfit
          rw [foundAt_same hblock, if_pos (by omega)]
        · rw [if_pos hroom, hsame]
  · rw [if_neg hfit]
    by_cases hread : b.getReadSize < n
    · rw [if_pos hread]
      exact iff_of_true ⟨_, rfl⟩ ⟨iff_of_false hfit (by omega), fun hc => absurd hc hfit⟩
    · -- bytes are left behind `m_position`, so that nothing is thrown
      rw [if_neg hread]
      refine iff_of_false ?_ fun hc => hfit (hc.1.mpr (by omega))
      rintro ⟨what, hrun⟩
      split at hrun
      · cases hrun
      · cases hrun

end

/-- **Reading at a position.**  In every reachable state, the const `read` of `n ≥ 1` bytes at `p`
stores the bytes that a seek and a read store, and throws when there are not so many, exactly when
`p + n` lies within the size just if `m_position + n` does, and, where it does, `p` lies in the
block of `m_position` or the same bytes are by chance at its offset from there on. -/
theorem reads_at_iff (base : Nat) (hb : 1 ≤ base) (heap : Nat → UInt8) (ops : List Op)
    (b : ByteArray) (h : runFrom step (new base heap) ops = some b) (p n : Nat) (hn : 1 ≤ n) :
    ReadsAt b p n ↔
      (p + n ≤ b.getSize ↔ n ≤ b.getReadSize) ∧
        (p + n ≤ b.getSize → p / b.baseSize = b.position / b.baseSize ∨
          b.foundAt p + n ≤ b.capacity ∧ b.memoryAt (b.foundAt p) n = b.memoryAt p n) :=
  readsAt_iff (run_inv hb h) hn

/-- The third byte of four, while the position is at the second. -/
theorem reads_at_third :
    ∃ b, runFrom step (new 4 fun _ => 0) [.write [1, 2, 3, 4], .setPosition 1] = some b ∧
      ReadsAt b 2 1 :=
  ⟨_, rfl, (reads_at_iff 4 (by decide) (fun _ => 0) [.write [1, 2, 3, 4], .setPosition 1] _ rfl 2 1
    (by decide)).mpr ⟨by decide, fun _ => .inl (by decide)⟩⟩

/-- The first byte of two, when both have been read: the call throws. -/
theorem reads_at_first_throws :
    ¬ ∀ (base : Nat), 1 ≤ base → ∀ (heap : Nat → UInt8) (ops : List Op) (b : ByteArray),
      runFrom step (new base heap) ops = some b → ∀ p n : Nat, 1 ≤ n → ReadsAt b p n := by
  intro h
  have hreads := h 4 (by decide) (fun _ => 0) [.write [1, 2]] _ rfl 0 1 (by decide)
  cases hreads.1

end Luwu.ByteArray
