import Luwu.ByteArray.Flat
import Luwu.ByteArray.NullSafety

/-!
# Saving to a file and loading from one

`writeToFile` computes the length of a chunk from the bytes left, the block size and the offset of
the position in its block; `readFromFile` reads block after block until the stream says that the
file has ended, and looks at no other bit of the stream.
-/

namespace Luwu.ByteArray

open Lib

/-! ## Saving -/

/-- The file holds the bytes from the position to the size, and the array is as before. -/
def SavesExactly (b : ByteArray) : Prop :=
  writeToFile b = .ok (b.abs.bytes.drop b.position) b

theorem savesExactly_iff {b : ByteArray} (h : Inv b) :
    SavesExactly b ↔
      b.getReadSize = 0 ∨ b.position % b.baseSize = 0 ∨ b.baseSize ≤ b.getReadSize := by
  unfold SavesExactly getReadSize
  rw [writeToFile_eq h]
  split
  · rename_i hc
    exact iff_of_true (congrArg (Outcome.ok · b) (abs_drop b).symm) hc
  · rename_i hc
    exact iff_of_false (fun hno => by cases hno) hc

/-- **Saving.**  In every reachable state `writeToFile` writes the bytes from the position to the
size and leaves the array alone, unless they are fewer than a block holds and the position is inside
a block. -/
theorem saves_iff (base : Nat) (hb : 1 ≤ base) (heap : Nat → UInt8) (ops : List Op)
    (b : ByteArray) (h : runFrom step (new base heap) ops = some b) :
    SavesExactly b ↔
      b.getReadSize = 0 ∨ b.position % b.baseSize = 0 ∨ b.baseSize ≤ b.getReadSize :=
  savesExactly_iff (run_inv hb h)

/-- From the second of five bytes on, in blocks of two. -/
theorem saves_from_second :
    ∃ b, runFrom step (new 2 fun _ => 0) [.write [1, 2, 3, 4, 5], .setPosition 1] = some b ∧
      SavesExactly b :=
  ⟨_, rfl, (saves_iff 2 (by decide) (fun _ => 0) [.write [1, 2, 3, 4, 5], .setPosition 1] _ rfl).mpr
    (.inr (.inr (by decide)))⟩

/-- From the second of three bytes on, in a block of four: the loop goes past the block. -/
theorem saves_nothing_inside :
    ¬ ∀ (base : Nat), 1 ≤ base → ∀ (heap : Nat → UInt8) (ops : List Op) (b : ByteArray),
      runFrom step (new base heap) ops = some b → SavesExactly b := by
  intro h
  have hsaves := h 4 (by decide) (fun _ => 0) [.write [1, 2, 3], .setPosition 1] _ rfl
  cases hsaves

/-! ## Writing in pieces

One write of all the bytes and two writes of the parts leave the same array, the new blocks and
what the heap hands out next included. -/

/-- How many blocks of `base` bytes hold `n` bytes. -/
def blocksFor (base n : Nat) : Nat := n / base + if n % base ≠ 0 then 1 else 0

theorem blocksFor_zero (base : Nat) : blocksFor base 0 = 0 := by simp [blocksFor]

theorem blocksFor_mul_lt {base n : Nat} (hb : 0 < base) : blocksFor base n * base < n + base := by
  have h := Nat.div_add_mod n base
  rw [Nat.mul_comm] at h
  unfold blocksFor
  split
  · rename_i hr
    rw [Nat.add_mul, Nat.one_mul]
    omega
  · rw [Nat.add_zero]
    omega

theorem blocksFor_eq {base n k : Nat} (hb : 0 < base) (hle : n ≤ k * base)
    (hlt : k * base < n + base) : blocksFor base n = k := by
  have hle' : n ≤ blocksFor base n * base := le_count_mul hb
  have hlt' := blocksFor_mul_lt (n := n) hb
  -- the two multiples of `base` are less than `base` apart
  have h₁ : blocksFor base n < k + 1 := by
    apply Nat.lt_of_mul_lt_mul_right (a := base)
    rw [Nat.succ_mul]
    omega
  have h₂ : k < blocksFor base n + 1 := by
    apply Nat.lt_of_mul_lt_mul_right (a := base)
    rw [Nat.succ_mul]
    omega
  omega

/-- What does not fit behind `old` bytes of room needs the same blocks at once or in two steps. -/
theorem blocksFor_add {base : Nat} (m n old : Nat) (hb : 0 < base) :
    blocksFor base (m + n - old) =
      blocksFor base (m - old) +
        blocksFor base (n - (old + blocksFor base (m - old) * base - m)) := by
  have hle : m - old ≤ blocksFor base (m - old) * base := le_count_mul hb
  have hlt := blocksFor_mul_lt (n := m - old) hb
  generalize blocksFor base (m - old) = k at hle hlt ⊢
  generalize hrest : n - (old + k * base - m) = r
  have hle' : r ≤ blocksFor base r * base := le_count_mul hb
  have hlt' := blocksFor_mul_lt (n := r) hb
  apply blocksFor_eq hb
  · rw [Nat.add_mul]
    omega
  · rw [Nat.add_mul]
    by_cases hr : r = 0
    · rw [hr, blocksFor_zero]
      omega
    · omega

theorem addNode_iterate_heap (b : ByteArray) (k : Nat) :
    (addNode^[k] b).heap = (fun i => b.heap (i + k * b.baseSize)) ∧
      flat (addNode^[k] b).nodes = flat b.nodes ++ (List.range (k * b.baseSize)).map b.heap := by
  induction k with
  | zero => simp
  | succ k ih =>
    obtain ⟨hheap, hflat⟩ := ih
    obtain ⟨_, -, -, -, -, hbase, -⟩ := addNode_iterate b k
    rw [Function.iterate_succ_apply']
    constructor
    · show (fun i => (addNode^[k] b).heap (i + (addNode^[k] b).baseSize)) = _
      rw [hheap, hbase]
      funext i
      show b.heap (i + b.baseSize + k * b.baseSize) = b.heap (i + (k + 1) * b.baseSize)
      rw [Nat.succ_mul, Nat.add_assoc, Nat.add_comm b.baseSize]
    · show flat ((addNode^[k] b).nodes ++ [(newNode _ _).1]) = _
      rw [flat_append, hflat, List.append_assoc, Nat.succ_mul, List.range_add, List.map_append,
        List.map_map, flat_cons, flat_nil, List.append_nil]
      congr 2
      show (List.range (addNode^[k] b).baseSize).map (addNode^[k] b).heap = _
      rw [hheap, hbase]
      apply List.map_congr_left
      intro i _
      show b.heap (i + k * b.baseSize) = b.heap (k * b.baseSize + i)
      rw [Nat.add_comm]

theorem addCapacity_memory (b : ByteArray) (n : Nat) :
    let k := blocksFor b.baseSize (n - (b.capacity - b.position))
    (b.addCapacity n).capacity = b.capacity + k * b.baseSize ∧
      (b.addCapacity n).heap = (fun i => b.heap (i + k * b.baseSize)) ∧
      flat (b.addCapacity n).nodes =
        flat b.nodes ++ (List.range (k * b.baseSize)).map b.heap := by
  intro k
  by_cases hle : n ≤ b.capacity - b.position
  · have hk : k = 0 := by
      show blocksFor _ _ = 0
      rw [Nat.sub_eq_zero_of_le hle, blocksFor_zero]
    have hsame : b.addCapacity n = b := if_pos hle
    rw [hk, hsame]
    simp
  · obtain ⟨hheap, hflat⟩ := addNode_iterate_heap b k
    obtain ⟨_, -, -, -, hcap, -⟩ := addNode_iterate b k
    have hrun : b.addCapacity n =
        if b.getCapacity = 0 then
          { addNode^[k] b with cur := nodeAt (addNode^[k] b).nodes b.nodes.length }
        else addNode^[k] b := if_neg hle
    rw [hrun]
    split
    · exact ⟨hcap, hheap, hflat⟩
    · exact ⟨hcap, hheap, hflat⟩

theorem Uniform.eq_of_flat {base : Nat} {c c' : List Node} (h : Uniform base c)
    (h' : Uniform base c') (hlen : c.length = c'.length) (hflat : flat c = flat c') : c = c' := by
  induction c generalizing c' with
  | nil => exact (List.length_eq_zero_iff.mp hlen.symm).symm
  | cons n c ih =>
    cases c' with
    | nil => cases hlen
    | cons n' c' =>
      obtain ⟨hn, hnlen⟩ := h.head
      obtain ⟨hn', hnlen'⟩ := h'.head
      obtain ⟨hptr, hrest⟩ := List.append_inj hflat (hnlen.trans hnlen'.symm)
      rw [ih h.tail h'.tail (Nat.succ.inj hlen) hrest]
      congr 1
      cases n
      cases n'
      simp only [Node.mk.injEq]
      exact ⟨hptr, hn.trans hn'.symm⟩

theorem Inv.eq_of_flat {b b' : ByteArray} (h : Inv b) (h' : Inv b')
    (hbase : b.baseSize = b'.baseSize) (hpos : b.position = b'.position)
    (hcap : b.capacity = b'.capacity) (hsize : b.size = b'.size) (hend : b.endian = b'.endian)
    (hheap : b.heap = b'.heap) (hflat : flat b.nodes = flat b'.nodes) : b = b' := by
  have hlen : b.nodes.length = b'.nodes.length := by
    apply Nat.eq_of_mul_eq_mul_right h.base_pos
    rw [← h.capacity_eq, hcap, h'.capacity_eq, hbase]
  have hnodes : b.nodes = b'.nodes := by
    have huni' := h'.uniform
    rw [← hbase] at huni'
    exact h.uniform.eq_of_flat huni' hlen hflat
  have hcur : b.cur = b'.cur := by rw [h.cur_eq, h'.cur_eq, hnodes, hpos, hbase]
  cases b
  cases b'
  simp only [mk.injEq]
  exact ⟨hbase, hpos, hcap, hsize, hend, hnodes, hcur, hheap⟩

theorem write_append {b : ByteArray} (h : Inv b) (d e : List UInt8) :
    write (d ++ e) b = (write d b).bind fun _ b' => write e b' := by
  by_cases hd : d = []
  · rw [hd, List.nil_append, write_nil, Outcome.bind_ok]
  by_cases he : e = []
  · obtain ⟨b₁, hrun, -⟩ := write_run h hd
    rw [he, List.append_nil, hrun, Outcome.bind_ok, write_nil]
  have hpc := h.position_le_capacity
  obtain ⟨b₁, hrun₁, h₁, hbase₁, hend₁, hpos₁, hsize₁, hcap₁, hheap₁, hflat₁⟩ := write_run h hd
  obtain ⟨b₂, hrun₂, h₂, hbase₂, hend₂, hpos₂, hsize₂, hcap₂, hheap₂, hflat₂⟩ := write_run h₁ he
  obtain ⟨b₃, hrun₃, h₃, hbase₃, hend₃, hpos₃, hsize₃, hcap₃, hheap₃, hflat₃⟩ :=
    write_run h (List.append_ne_nil_of_left_ne_nil hd e)
  rw [hrun₁, Outcome.bind_ok, hrun₂, hrun₃]
  obtain ⟨hgcap₁, hgheap₁, hgflat₁⟩ := addCapacity_memory b d.length
  obtain ⟨hgcap₂, hgheap₂, hgflat₂⟩ := addCapacity_memory b₁ e.length
  obtain ⟨hgcap₃, hgheap₃, hgflat₃⟩ := addCapacity_memory b (d ++ e).length
  -- the blocks of the one write are those of the two
  have hsum := blocksFor_add d.length e.length (b.capacity - b.position) h.base_pos
  rw [← List.length_append] at hsum
  have hroom : b₁.capacity - b₁.position =
      b.capacity - b.position + blocksFor b.baseSize (d.length - (b.capacity - b.position)) *
        b.baseSize - d.length := by
    rw [hcap₁, hgcap₁, hpos₁]
    omega
  rw [hroom, hbase₁, hheap₁, hgheap₁] at hgheap₂ hgflat₂
  rw [hroom, hbase₁, hcap₁, hgcap₁] at hgcap₂
  generalize blocksFor b.baseSize (d.length - (b.capacity - b.position)) = k₁ at *
  generalize blocksFor b.baseSize (e.length - (b.capacity - b.position + k₁ * b.baseSize -
    d.length)) = k₂ at *
  rw [hsum] at hgcap₃ hgheap₃ hgflat₃
  congr 1
  apply h₃.eq_of_flat h₂
  · rw [hbase₃, hbase₂, hbase₁]
  · rw [hpos₃, hpos₂, hpos₁, List.length_append, Nat.add_assoc]
  · rw [hcap₃, hgcap₃, hcap₂, hgcap₂, Nat.add_mul, Nat.add_assoc]
  · rw [hsize₃, hsize₂, hsize₁, hpos₁, List.length_append]
    omega
  · rw [hend₃, hend₂, hend₁]
  · rw [hheap₃, hgheap₃, hheap₂, hgheap₂]
    funext i
    rw [Nat.add_mul]
    congr 1
    omega
  · -- the second write goes on where the first one has ended, in memory that has grown again
    have hfit : b.position + d.length ≤ (flat (b.addCapacity d.length).nodes).length := by
      obtain ⟨hg, hroom', -⟩ := addCapacity_spec h d.length
      rw [hg.length_flat]
      exact hroom'
    rw [hflat₃, hflat₂, hgflat₂, hflat₁, hpos₁, ← splice_append_left hfit,
      splice_splice (by rw [List.length_append]; omega), hgflat₃, hgflat₁, Nat.add_mul,
      List.range_add, List.map_append, List.map_map, List.append_assoc]
    congr 4
    funext i
    show b.heap (k₁ * b.baseSize + i) = b.heap (i + k₁ * b.baseSize)
    rw [Nat.add_comm]

/-! ## Input streams -/

/-- A `std::ifstream` that has been opened. -/
structure IfStream where
  /-- What the file still holds. -/
  rest : List UInt8
  /-- Whether the file cannot be read when `read` is called for the `i`-th time. -/
  fails : Nat → Bool
  /-- The calls of `read` so far. -/
  reads : Nat := 0
  eofbit : Bool := false
  failbit : Bool := false
  badbit : Bool := false
  gcount : Nat := 0

namespace IfStream

def good (s : IfStream) : Bool := !s.eofbit && !s.failbit && !s.badbit

/-- `ifs.read (buf, n)`, and what it stores in `buf`.  A stream that is not good delivers nothing,
and an error of the file sets `badbit` alone. -/
def read (s : IfStream) (n : Nat) : List UInt8 × IfStream :=
  if !s.good then ([], { s with reads := s.reads + 1, failbit := true, gcount := 0 })
  else if s.fails s.reads then
    ([], { s with reads := s.reads + 1, badbit := true, gcount := 0 })
  else
    let d := s.rest.take n
    (d, { s with
      rest := s.rest.drop n
      reads := s.reads + 1
      eofbit := d.length < n
      failbit := d.length < n
      gcount := d.length })

end IfStream

/-- The loop of `readFromFile` for at most `fuel` passes, `none` when it has not ended by then. -/
def readFromFileLoop : Nat → IfStream → ByteArray → Option (Outcome Fault Exn ByteArray Bool)
  | 0, ifs, b => if ifs.eofbit then some (.ok true b) else none
  | fuel + 1, ifs, b =>
    if ifs.eofbit then some (.ok true b)
    else
      let r := ifs.read b.baseSize
      match write (r.1.take r.2.gcount) b with
      | .ok _ b' => readFromFileLoop fuel r.2 b'
      | .thrown e b' => some (.thrown e b')
      | .fault x => some (.fault x)

/-- What loading a file of these contents is to do: the loop ends, and when the file can be read it
has the effect of writing the contents. -/
structure LoadsWhole (content : List UInt8) (fails : Nat → Bool) (b : ByteArray) : Prop where
  ends : ∃ fuel r, readFromFileLoop fuel { rest := content, fails } b = some r
  effect : (∀ i, fails i = false) →
    ∃ fuel, readFromFileLoop fuel { rest := content, fails } b =
      some ((write content b).bind fun _ b' => .ok true b')

/-! ## Loading -/

theorem write_returns {b : ByteArray} (h : Inv b) (d : List UInt8) :
    ∃ b', write d b = .ok () b' ∧ Inv b' ∧ b'.baseSize = b.baseSize := by
  by_cases hd : d = []
  · subst hd
    exact ⟨b, write_nil b, h, rfl⟩
  · obtain ⟨b', hrun, hinv, hbase, -⟩ := write_run h hd
    exact ⟨b', hrun, hinv, hbase⟩

namespace IfStream

theorem read_of_not_good {s : IfStream} (h : s.good = false) (n : Nat) :
    s.read n = ([], { s with reads := s.reads + 1, failbit := true, gcount := 0 }) := by
  rw [read, h]
  rfl

theorem read_fails {s : IfStream} (h : s.good = true) (hf : s.fails s.reads = true) (n : Nat) :
    s.read n = ([], { s with reads := s.reads + 1, badbit := true, gcount := 0 }) := by
  rw [read, h, hf]
  rfl

theorem read_good {s : IfStream} (h : s.good = true) (hf : s.fails s.reads = false) (n : Nat) :
    s.read n = (s.rest.take n, { s with
      rest := s.rest.drop n
      reads := s.reads + 1
      eofbit := (s.rest.take n).length < n
      failbit := (s.rest.take n).length < n
      gcount := (s.rest.take n).length }) := by
  rw [read, h, hf]
  rfl

theorem eofbit_of_good {s : IfStream} (h : s.good = true) : s.eofbit = false := by
  unfold good at h
  cases hs : s.eofbit with
  | false => rfl
  | true =>
    rw [hs] at h
    cases h

theorem good_of_full {s : IfStream} (h : s.good = true) {n : Nat}
    (hn : n ≤ (s.rest.take n).length) :
    good { s with
      rest := s.rest.drop n
      reads := s.reads + 1
      eofbit := (s.rest.take n).length < n
      failbit := (s.rest.take n).length < n
      gcount := (s.rest.take n).length } = true := by
  have hbad : s.badbit = false := by
    unfold good at h
    cases hs : s.badbit with
    | false => rfl
    | true =>
      rw [hs, Bool.not_true, Bool.and_false] at h
      cases h
  rw [good, hbad, decide_eq_false (Nat.not_lt.mpr hn)]
  rfl

end IfStream

theorem loop_eof {ifs : IfStream} (h : ifs.eofbit = true) (fuel : Nat) (b : ByteArray) :
    readFromFileLoop fuel ifs b = some (.ok true b) := by
  cases fuel <;> rw [readFromFileLoop, if_pos h]

theorem loop_nothing {ifs ifs' : IfStream} {b : ByteArray} (h : ifs.eofbit = false)
    (hread : ifs.read b.baseSize = ([], ifs')) (fuel : Nat) :
    readFromFileLoop (fuel + 1) ifs b = readFromFileLoop fuel ifs' b := by
  rw [readFromFileLoop, h, if_neg Bool.false_ne_true, hread]
  dsimp only
  rw [List.take_nil, write_nil]

/-- A stream that is not good any more and has not met the end of the file. -/
theorem loop_stuck (fuel : Nat) {ifs : IfStream} (heof : ifs.eofbit = false)
    (hgood : ifs.good = false) (b : ByteArray) : readFromFileLoop fuel ifs b = none := by
  induction fuel generalizing ifs with
  | zero =>
    rw [readFromFileLoop, heof]
    rfl
  | succ fuel ih =>
    rw [loop_nothing heof (IfStream.read_of_not_good hgood _)]
    apply ih
    · exact heof
    · simp [IfStream.good]

/-- Reads of no bytes never meet the end of the file. -/
theorem loop_no_block (fuel : Nat) {ifs : IfStream} (heof : ifs.eofbit = false) {b : ByteArray}
    (hb : b.baseSize = 0) : readFromFileLoop fuel ifs b = none := by
  induction fuel generalizing ifs with
  | zero =>
    rw [readFromFileLoop, heof]
    rfl
  | succ fuel ih =>
    by_cases hgood : ifs.good = true
    · cases hf : ifs.fails ifs.reads with
      | true =>
        rw [loop_nothing heof (IfStream.read_fails hgood hf _)]
        apply ih
        exact heof
      | false =>
        have hread := IfStream.read_good hgood hf b.baseSize
        rw [hb, List.take_zero, ← hb] at hread
        rw [loop_nothing heof hread]
        apply ih
        rw [hb]
        rfl
    · exact loop_stuck (fuel + 1) heof (Bool.eq_false_iff.mpr hgood) b

/-- The calls of `read` that take a file of `n` bytes to its end are those up to the `n / base`-th:
when one of them fails, the loop never ends. -/
theorem loop_fails (fuel : Nat) {ifs : IfStream} (hgood : ifs.good = true) {b : ByteArray}
    (h : Inv b) {i : Nat} (hle : ifs.reads ≤ i)
    (hi : i ≤ ifs.reads + ifs.rest.length / b.baseSize) (hf : ifs.fails i = true) :
    readFromFileLoop fuel ifs b = none := by
  induction fuel generalizing ifs b with
  | zero =>
    rw [readFromFileLoop, IfStream.eofbit_of_good hgood]
    rfl
  | succ fuel ih =>
    have heof := IfStream.eofbit_of_good hgood
    cases hnow : ifs.fails ifs.reads with
    | true =>
      rw [loop_nothing heof (IfStream.read_fails hgood hnow _)]
      apply loop_stuck
      · exact heof
      · simp [IfStream.good]
    | false =>
      -- the failing call comes later, so this one delivers a whole block
      have hne : ifs.reads ≠ i := by
        rintro rfl
        rw [hf] at hnow
        cases hnow
      have hblock : b.baseSize ≤ ifs.rest.length := by
        apply Nat.le_of_not_lt
        intro hlt
        rw [Nat.div_eq_of_lt hlt] at hi
        omega
      have hlen : (ifs.rest.take b.baseSize).length = b.baseSize := by
        rw [List.length_take]
        omega
      have hdiv : ifs.rest.length / b.baseSize =
          (ifs.rest.drop b.baseSize).length / b.baseSize + 1 := by
        rw [List.length_drop, ← Nat.add_div_right _ h.base_pos]
        congr 1
        omega
      obtain ⟨b', hrun, hinv, hbase⟩ := write_returns h (ifs.rest.take b.baseSize)
      rw [readFromFileLoop, heof, if_neg Bool.false_ne_true,
        IfStream.read_good hgood hnow]
      dsimp only
      rw [List.take_length, hrun]
      dsimp only
      apply ih
      · exact IfStream.good_of_full hgood (Nat.le_of_eq hlen.symm)
      · exact hinv
      · show ifs.reads + 1 ≤ i
        omega
      · show i ≤ ifs.reads + 1 + (ifs.rest.drop b.baseSize).length / b'.baseSize
        rw [hbase]
        omega
      · exact hf

/-- When none of these calls fails, the loop writes what is left of the file. -/
theorem loop_loads (q : Nat) {ifs : IfStream} (hgood : ifs.good = true) {b : ByteArray}
    (h : Inv b) (hq : ifs.rest.length / b.baseSize = q)
    (hf : ∀ i, ifs.reads ≤ i → i ≤ ifs.reads + q → ifs.fails i = false) :
    readFromFileLoop (q + 1) ifs b = some ((write ifs.rest b).bind fun _ b' => .ok true b') := by
  have heof := IfStream.eofbit_of_good hgood
  induction q generalizing ifs b with
  | zero =>
    -- the last read delivers fewer bytes than it was asked for, and meets the end of the file
    have hlt : ifs.rest.length < b.baseSize := Nat.lt_of_div_eq_zero h.base_pos hq
    obtain ⟨b', hrun, -⟩ := write_returns h ifs.rest
    rw [readFromFileLoop, heof, if_neg Bool.false_ne_true,
      IfStream.read_good hgood (hf _ (Nat.le_refl _) (Nat.le_add_right _ _)),
      List.take_of_length_le (Nat.le_of_lt hlt)]
    dsimp only
    rw [List.take_length, hrun]
    exact loop_eof (decide_eq_true hlt) 0 b'
  | succ q ih =>
    have hblock : b.baseSize ≤ ifs.rest.length := by
      apply Nat.le_of_not_lt
      intro hlt
      rw [Nat.div_eq_of_lt hlt] at hq
      cases hq
    have hlen : (ifs.rest.take b.baseSize).length = b.baseSize := by
      rw [List.length_take]
      omega
    have hdiv : (ifs.rest.drop b.baseSize).length / b.baseSize = q := by
      have := Nat.add_div_right (ifs.rest.length - b.baseSize) h.base_pos
      rw [Nat.sub_add_cancel hblock, hq] at this
      rw [List.length_drop]
      omega
    obtain ⟨b', hrun, hinv, hbase⟩ := write_returns h (ifs.rest.take b.baseSize)
    have happend := write_append h (ifs.rest.take b.baseSize) (ifs.rest.drop b.baseSize)
    rw [List.take_append_drop, hrun, Outcome.bind_ok] at happend
    rw [readFromFileLoop, heof, if_neg Bool.false_ne_true,
      IfStream.read_good hgood (hf _ (Nat.le_refl _) (Nat.le_add_right _ _))]
    dsimp only
    rw [List.take_length, hrun, happend]
    dsimp only
    apply ih
    · exact IfStream.good_of_full hgood (Nat.le_of_eq hlen.symm)
    · exact hinv
    · show (ifs.rest.drop b.baseSize).length / b'.baseSize = q
      rw [hbase, hdiv]
    · intro i hlo hhi
      exact hf i (by dsimp only at hlo; omega) (by dsimp only at hhi; omega)
    · exact decide_eq_false (by omega)

/-- **Loading.**  In every reachable state `readFromFile` ends, and then with the effect of writing
what the file holds, exactly when the blocks are not empty and none of the calls of `read` up to
the one that meets the end of the file fails. -/
theorem loads_iff (base : Nat) (heap : Nat → UInt8) (ops : List Op) (b : ByteArray)
    (h : runFrom step (new base heap) ops = some b) (content : List UInt8) (fails : Nat → Bool) :
    LoadsWhole content fails b ↔
      1 ≤ base ∧ ∀ i, i ≤ content.length / base → fails i = false := by
  have hbase := run_baseSize h
  constructor
  · intro hloads
    obtain ⟨fuel, r, hrun⟩ := hloads.ends
    have hpos : 1 ≤ base := by
      by_contra hzero
      rw [loop_no_block fuel rfl (hbase.trans (by omega))] at hrun
      cases hrun
    refine ⟨hpos, ?_⟩
    intro i hi
    by_contra hf
    rw [loop_fails fuel rfl (run_inv hpos h) (Nat.zero_le i)
      (by rw [hbase, Nat.zero_add]; exact hi) (Bool.eq_true_of_not_eq_false hf)] at hrun
    cases hrun
  · intro ⟨hpos, hf⟩
    have hgood : ({ rest := content, fails } : IfStream).good = true := rfl
    have hrun := loop_loads (content.length / base) hgood (run_inv hpos h) (by rw [hbase])
      (fun i _ hi => hf i (by rw [Nat.zero_add] at hi; exact hi))
    exact ⟨⟨_, _, hrun⟩, fun _ => ⟨_, hrun⟩⟩

/-- Five bytes into an array of blocks of two. -/
theorem loads_five :
    LoadsWhole [1, 2, 3, 4, 5] (fun _ => false) (new 2 fun _ => 0) :=
  (loads_iff 2 (fun _ => 0) [] _ rfl [1, 2, 3, 4, 5] fun _ => false).mpr
    ⟨by decide, fun _ _ => rfl⟩

/-- A file that cannot be read, a directory for one: the stream goes bad at the first read, and the
loop goes on for ever. -/
theorem loads_directory :
    ¬ ∀ (base : Nat) (heap : Nat → UInt8) (ops : List Op) (b : ByteArray),
      runFrom step (new base heap) ops = some b → ∀ (content : List UInt8) (fails : Nat → Bool),
        LoadsWhole content fails b := by
  intro h
  obtain ⟨fuel, r, hrun⟩ := (h 4096 (fun _ => 0) [] _ rfl [] fun _ => true).ends
  rw [loop_fails fuel rfl (new_inv (by decide) _) (Nat.zero_le 0) (Nat.zero_le _) rfl] at hrun
  cases hrun

end Luwu.ByteArray
