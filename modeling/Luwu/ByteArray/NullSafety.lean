import Luwu.ByteArray.Integers

/-!
# Null node pointers

`m_cur` is null when the position is the end of the capacity.  `write`, `toString` and the buffer
members look at their length before they touch `m_cur`; `read` and `writeToFile` do not, and
`read (buf, size, position)` and `getReadBuffers (buffers, len, position)` check their length
against `m_position` but walk from elsewhere.  `NoNull` says for every public member when it stays
clear of the null pointer.
-/

namespace Luwu.ByteArray

open Lib

/-! ## The conditions -/

/-- The variable-length encodings of zero with at most `k` continuation bytes: continuation bytes
without payload and a zero byte, where of the byte after the last one only the lowest bit counts
(its other bits are shifted out of the 64-bit result). -/
def ZeroVint : Nat → List UInt8 → Prop
  | 0, [x] => x.toNat % 2 = 0
  | k + 1, x :: d => (x = 0 ∧ d = []) ∨ (x = 0x80 ∧ ZeroVint k d)
  | _, _ => False

/-- The zero-length read at the very end of the capacity, after a length field of `n` bytes. -/
def EmptyStringAtEnd (b : ByteArray) (n : Nat) : Prop :=
  b.size = b.capacity ∧ b.unread = List.replicate n 0

/-- The arguments and states for which a member meets no null node. -/
def NoNull (b : ByteArray) : Op → Prop
  | .read size => ¬ (size = 0 ∧ b.position = b.capacity)
  | .readStringFix16 => ¬ EmptyStringAtEnd b 2
  | .readStringFix32 => ¬ EmptyStringAtEnd b 4
  | .readStringFix64 => ¬ EmptyStringAtEnd b 8
  | .readStringVint => ¬ (b.size = b.capacity ∧ ZeroVint 9 b.unread)
  | .readAt size position =>
    b.size - b.position < size ∨
      (b.position < b.capacity ∧
        b.position / b.baseSize * b.baseSize + position % b.baseSize + size ≤ b.capacity)
  | .getReadBuffersAt len position =>
    min len (b.size - b.position) = 0 ∨
      position + min len (b.size - b.position) ≤ b.capacity
  | .writeToFile =>
    b.size - b.position = 0 ∨ b.position % b.baseSize = 0 ∨ b.baseSize ≤ b.size - b.position
  | _ => True

/-! ## Raw access -/

theorem drop_faults {α : Type} {m : M α} {b : ByteArray} :
    Prog.Faults (drop m) b ↔ Prog.Faults m b := by
  rw [drop, Prog.Faults.bind_iff]
  constructor
  · rintro (h | ⟨a, s', -, h⟩)
    · exact h
    · exact absurd h (Prog.Faults.not_pure _ _)
  · exact .inl

theorem write_no_fault {b : ByteArray} (h : Inv b) (d : List UInt8) :
    ¬ Prog.Faults (write d) b := by
  by_cases hd : d = []
  · subst hd
    exact Prog.Faults.of_ok (write_nil b)
  · obtain ⟨b', _, hrun, -⟩ := write_spec h hd
    exact Prog.Faults.of_ok hrun

theorem read_faults {b : ByteArray} (h : Inv b) (size : Nat) :
    Prog.Faults (read size) b ↔ size = 0 ∧ b.position = b.capacity := by
  unfold Prog.Faults
  rw [read_eq h]
  split
  · rename_i hlt
    simp only [Outcome.state?_thrown, reduceCtorEq, false_iff]
    omega
  · split
    · rename_i hz
      simp [hz]
    · rename_i hz
      simp [hz]

theorem readAt_faults {b : ByteArray} (h : Inv b) (size position : Nat) :
    ¬ Prog.Faults (readAt size position) b ↔ NoNull b (.readAt size position) := by
  have hpl := h.position_le
  have hsl := h.size_le
  unfold Prog.Faults readAt NoNull getReadSize
  by_cases hlt : b.size - b.position < size
  · simp [hlt]
  · rw [if_neg hlt]
    by_cases hpc : b.position < b.capacity
    · -- the loop runs over the blocks from the position on
      have hnone : readLoop (b.nodes.drop (b.position / b.baseSize)) (position % b.baseSize) size =
          none ↔ _ := readLoop_eq_none (h.uniform.drop _) (h.mod_lt position)
      have hmod := h.mod_lt position
      have hrest := h.rest_capacity
      have hblock : b.position / b.baseSize * b.baseSize + b.baseSize ≤ b.capacity := by
        rw [← Nat.succ_mul, h.capacity_eq]
        exact Nat.mul_le_mul_right _ (h.div_lt hpc)
      simp only [h.cur_some hpc]
      cases hr : readLoop (b.nodes.drop (b.position / b.baseSize)) (position % b.baseSize) size with
      | none =>
        obtain ⟨hfit, -⟩ := hnone.mp hr
        simp only [Outcome.state?_fault, not_true_eq_false, false_iff]
        omega
      | some r =>
        have hfit := mt hnone.mpr (by rw [hr]; simp)
        simp only [Outcome.state?_ok, reduceCtorEq, not_false_eq_true, true_iff]
        omega
    · -- `m_cur` is null
      simp only [h.cur_none (by omega), Outcome.state?_fault, not_true_eq_false, false_iff]
      omega

theorem toString_no_fault {b : ByteArray} (h : Inv b) : ¬ Prog.Faults toString b := by
  have hpl := h.position_le
  have hsl := h.size_le
  by_cases hz : b.getReadSize = 0
  · exact Prog.Faults.of_ok (by rw [toString, if_pos hz])
  · have hrun : toString b = readAt b.getReadSize b.position b := by rw [toString, if_neg hz]
    unfold Prog.Faults
    rw [hrun]
    refine (readAt_faults h _ _).mpr (.inr ?_)
    have hsplit := Inv.position_split b
    unfold getReadSize at hz ⊢
    omega

/-! ## The buffer members -/

/-- The buffer loop from block `i` on stays within the chain exactly when the bytes are there. -/
theorem bufferLoop_eq_none {b : ByteArray} (h : Inv b) (i npos len : Nat)
    (hnpos : npos < b.baseSize) (hlen : 0 < len) :
    bufferLoop (b.nodes.drop i) i npos len = none ↔ b.capacity < i * b.baseSize + npos + len := by
  rw [bufferLoop_eq_none_iff, readLoop_eq_none (h.uniform.drop i) hnpos, List.length_drop,
    Nat.sub_mul, ← h.capacity_eq]
  omega

theorem getReadBuffers_no_fault {b : ByteArray} (h : Inv b) (len : Nat) :
    ¬ Prog.Faults (getReadBuffers len) b := by
  have hpl := h.position_le
  have hsl := h.size_le
  have hsplit := Inv.position_split b
  unfold Prog.Faults getReadBuffers getReadSize
  dsimp only
  have hle : (if b.size - b.position < len then b.size - b.position else len) ≤
      b.size - b.position := by split <;> omega
  generalize (if b.size - b.position < len then b.size - b.position else len) = n at hle ⊢
  by_cases hz : n = 0
  · simp [hz]
  · have hnone := bufferLoop_eq_none h (b.position / b.baseSize) (b.position % b.baseSize) n
      (h.mod_lt _) (by omega)
    simp only [if_neg hz, h.cur_some (by omega : b.position < b.capacity)]
    cases hr : bufferLoop (b.nodes.drop (b.position / b.baseSize)) (b.position / b.baseSize)
        (b.position % b.baseSize) n with
    | none =>
      have := hnone.mp hr
      omega
    | some iovs => simp

theorem getReadBuffersAt_faults {b : ByteArray} (h : Inv b) (len position : Nat) :
    ¬ Prog.Faults (getReadBuffersAt len position) b ↔
      NoNull b (.getReadBuffersAt len position) := by
  unfold Prog.Faults getReadBuffersAt getReadSize NoNull
  dsimp only
  have hmin : (if b.size - b.position < len then b.size - b.position else len) =
      min len (b.size - b.position) := by split <;> omega
  rw [hmin]
  generalize min len (b.size - b.position) = n
  by_cases hz : n = 0
  · simp [hz]
  · have hnone := bufferLoop_eq_none h (position / b.baseSize) (position % b.baseSize) n
      (h.mod_lt _) (by omega)
    -- the block and the offset are those of `position`
    have hsplit : position / b.baseSize * b.baseSize + position % b.baseSize = position := by
      rw [Nat.mul_comm]
      exact Nat.div_add_mod _ _
    rw [hsplit] at hnone
    simp only [if_neg hz]
    cases hr : bufferLoop (b.nodes.drop (position / b.baseSize)) (position / b.baseSize)
        (position % b.baseSize) n with
    | none =>
      have := hnone.mp hr
      simp only [Outcome.state?_fault, not_true_eq_false, false_iff]
      omega
    | some iovs =>
      have := mt hnone.mpr (by rw [hr]; simp)
      simp only [Outcome.state?_ok, reduceCtorEq, not_false_eq_true, true_iff]
      omega

theorem getWriteBuffers_no_fault {b : ByteArray} (h : Inv b) (len : Nat) :
    ¬ Prog.Faults (getWriteBuffers len) b := by
  by_cases hz : len = 0
  · exact Prog.Faults.of_ok (by rw [getWriteBuffers, if_pos hz])
  · obtain ⟨hg, hroom, -, hpos, -⟩ := addCapacity_spec h len
    unfold Prog.Faults getWriteBuffers
    simp only [if_neg hz]
    generalize b.addCapacity len = g at *
    have hsplit := Inv.position_split g
    have hnone := bufferLoop_eq_none hg (g.position / g.baseSize) (g.position % g.baseSize) len
      (hg.mod_lt _) (by omega)
    simp only [hg.cur_some (by omega)]
    cases hr : bufferLoop (g.nodes.drop (g.position / g.baseSize)) (g.position / g.baseSize)
        (g.position % g.baseSize) len with
    | none =>
      have := hnone.mp hr
      omega
    | some iovs => simp

/-! ## Writing to a file -/

/-- With fewer bytes left than a block holds, at an offset into the block, the loop of
`writeToFile` swaps the offset and the count at every round and never ends. -/
theorem fileLoop_unaligned {base : Nat} (c : List Node) {pos readSize : Nat}
    (hpos : 0 < pos % base) (hread : 0 < readSize) (hlt : readSize < base) :
    fileLoop base c pos readSize = none := by
  induction c generalizing pos readSize with
  | nil =>
    obtain ⟨m, rfl⟩ := Nat.exists_eq_succ_of_ne_zero (Nat.pos_iff_ne_zero.mp hread)
    rfl
  | cons n c ih =>
    obtain ⟨m, rfl⟩ := Nat.exists_eq_succ_of_ne_zero (Nat.pos_iff_ne_zero.mp hread)
    have hdiff : pos % base < base := Nat.mod_lt _ (by omega)
    have hdm := Nat.div_add_mod pos base
    have hpos' : ((pos : Int) + (((m + 1 : Nat) : Int) - ((pos % base : Nat) : Int))).toNat =
        (m + 1) + base * (pos / base) := by omega
    have hread' : (((m + 1 : Nat) : Int) -
        (((m + 1 : Nat) : Int) - ((pos % base : Nat) : Int))).toNat =
        pos % base := by omega
    simp only [fileLoop]
    rw [if_neg (by omega), hpos', hread', ih]
    · rw [Nat.add_mul_mod_self_left, Nat.mod_eq_of_lt hlt]
      omega
    · exact hpos
    · exact hdiff

/-- From the start of a block on, the loop writes the bytes of the chain. -/
theorem fileLoop_aligned {base : Nat} (hb : 0 < base) {c : List Node} (h : Uniform base c)
    {pos readSize : Nat} (hpos : pos % base = 0) (hfit : readSize ≤ c.length * base) :
    fileLoop base c pos readSize = some ((flat c).take readSize) := by
  induction c generalizing pos readSize with
  | nil =>
    have hz : readSize = 0 := by simpa using hfit
    subst hz
    rfl
  | cons n c ih =>
    obtain ⟨-, hlen⟩ := h.head
    cases readSize with
    | zero => rfl
    | succ m =>
      rw [List.length_cons, Nat.succ_mul] at hfit
      simp only [fileLoop, hpos, flat_cons]
      by_cases hlt : base < m + 1
      · -- a whole block is written, and the next one starts at its first byte
        rw [if_pos hlt]
        have hrec : fileLoop base c (pos + base) (m + 1 - base) =
            some ((flat c).take (m + 1 - base)) :=
          ih h.tail (by rw [Nat.add_mod_right, hpos]) (by omega)
        have h₁ : ((pos : Int) + ((base : Int) - ((0 : Nat) : Int))).toNat = pos + base := by omega
        have h₂ : (((m + 1 : Nat) : Int) - ((base : Int) - ((0 : Nat) : Int))).toNat =
            m + 1 - base := by omega
        have h₃ : ((base : Int) - ((0 : Nat) : Int)).toNat = base := by omega
        rw [h₁, h₂, h₃, hrec, List.take_append, hlen, Node.load, List.drop_zero,
          List.take_of_length_le (by omega : n.ptr.length ≤ base),
          List.take_of_length_le (by omega : n.ptr.length ≤ m + 1)]
      · -- what is left ends in this block
        rw [if_neg hlt]
        have h₂ : (((m + 1 : Nat) : Int) - (((m + 1 : Nat) : Int) - ((0 : Nat) : Int))).toNat =
            0 := by omega
        have h₃ : (((m + 1 : Nat) : Int) - ((0 : Nat) : Int)).toNat = m + 1 := by omega
        rw [h₂, h₃, fileLoop, List.take_append_of_le_length (by omega), Node.load,
          List.drop_zero]
        exact congrArg some (List.append_nil _)

/-- A full block's worth of bytes brings the loop to the start of the next block. -/
theorem fileLoop_of_block {base : Nat} (hb : 0 < base) {c : List Node} (h : Uniform base c)
    {pos readSize : Nat} (hread : base ≤ readSize)
    (hfit : pos % base + readSize ≤ c.length * base) :
    fileLoop base c pos readSize = some (((flat c).drop (pos % base)).take readSize) := by
  cases c with
  | nil => simp at hfit; omega
  | cons n c =>
    obtain ⟨-, hlen⟩ := h.head
    obtain ⟨m, rfl⟩ := Nat.exists_eq_succ_of_ne_zero (by omega : readSize ≠ 0)
    rw [List.length_cons, Nat.succ_mul] at hfit
    have hdiff : pos % base < base := Nat.mod_lt _ hb
    have hdm := Nat.div_add_mod pos base
    have hcount : (if base < m.succ then base else m.succ) = base := by split <;> omega
    have hpos' : ((pos : Int) + ((base : Int) - ((pos % base : Nat) : Int))).toNat =
        base + base * (pos / base) := by omega
    have hread' : (((m.succ : Nat) : Int) - ((base : Int) - ((pos % base : Nat) : Int))).toNat =
        m.succ - (base - pos % base) := by omega
    have hlen' : ((base : Int) - ((pos % base : Nat) : Int)).toNat = base - pos % base := by omega
    have hdrop : (n.ptr.drop (pos % base)).length = base - pos % base := by
      rw [List.length_drop, hlen]
    -- the next turn starts at the start of a block
    have hrec : fileLoop base c (base + base * (pos / base)) (m.succ - (base - pos % base)) =
        some ((flat c).take (m.succ - (base - pos % base))) :=
      fileLoop_aligned hb h.tail (by rw [Nat.add_mul_mod_self_left, Nat.mod_self]) (by omega)
    simp only [fileLoop]
    rw [hcount, hpos', hread', hlen', hrec, flat_cons, List.drop_append_of_le_length (by omega),
      List.take_append, hdrop, Node.load,
      List.take_of_length_le (by omega : (n.ptr.drop (pos % base)).length ≤ base - pos % base),
      List.take_of_length_le (by omega : (n.ptr.drop (pos % base)).length ≤ m.succ)]

/-- The file gets the bytes behind the position, or the loop goes past the last block. -/
theorem writeToFile_eq {b : ByteArray} (h : Inv b) :
    writeToFile b =
      if b.size - b.position = 0 ∨ b.position % b.baseSize = 0 ∨
          b.baseSize ≤ b.size - b.position then
        .ok (((flat b.nodes).drop b.position).take (b.size - b.position)) b
      else .fault .nullDeref := by
  have hpl := h.position_le
  have hsl := h.size_le
  have hsplit := Inv.position_split b
  have hrest := h.rest_capacity
  have huni := h.uniform.drop (b.position / b.baseSize)
  unfold writeToFile getReadSize
  by_cases hz : b.size - b.position = 0
  · rw [if_pos hz, if_pos (.inl hz), hz, List.take_zero]
  · rw [if_neg hz, h.cur_some (by omega : b.position < b.capacity)]
    dsimp only
    by_cases hal : b.position % b.baseSize = 0
    · -- the position is at the start of a block
      rw [if_pos (.inr (.inl hal)), fileLoop_aligned h.base_pos huni hal (by omega),
        ← drop_flat_rest h, hal, List.drop_zero]
    · by_cases hfull : b.baseSize ≤ b.size - b.position
      · -- or the bytes reach the next start
        rw [if_pos (.inr (.inr hfull)), fileLoop_of_block h.base_pos huni hfull (by omega),
          drop_flat_rest h]
      · -- or they end inside a block, and the loop goes past it
        rw [fileLoop_unaligned _ (by omega) (by omega) (by omega), if_neg (by omega)]

theorem writeToFile_faults {b : ByteArray} (h : Inv b) :
    ¬ Prog.Faults writeToFile b ↔ NoNull b .writeToFile := by
  unfold Prog.Faults
  rw [writeToFile_eq h]
  split
  · rename_i hno
    exact iff_of_true (by simp) hno
  · rename_i hno
    exact iff_of_false (by simp) hno

/-! ## Strings -/

theorem readStringBody_faults {b : ByteArray} (h : Inv b) (len : Nat) :
    Prog.Faults (readStringBody len) b ↔ len = 0 ∧ b.position = b.capacity := by
  unfold readStringBody
  split
  · rename_i hmax
    have hne : len ≠ 0 := by
      rintro rfl
      simp at hmax
    simp only [hne, false_and, iff_false]
    exact Prog.Faults.of_thrown rfl
  · exact read_faults h len

/-- After a length field of `n` bytes the position is the capacity exactly when those were the
last bytes of a full array. -/
theorem advance_at_capacity {b : ByteArray} (h : Inv b) {n : Nat} (hn : n ≤ b.unread.length) :
    (b.advance n).position = (b.advance n).capacity ↔
      b.size = b.capacity ∧ b.unread.length = n := by
  have hpl := h.position_le
  have hsl := h.size_le
  rw [length_unread h] at hn ⊢
  change b.position + n = b.capacity ↔ _
  omega

theorem toNat_eq_zero {w : Nat} {v : BitVec w} : v.toNat = 0 ↔ v = 0 := by
  rw [← BitVec.toNat_inj]
  rfl

theorem readStringFix_faults {b : ByteArray} (h : Inv b) {n : Nat} (hpos : 0 < n) :
    Prog.Faults (readFix n >>= fun len => readStringBody len.toNat) b ↔ EmptyStringAtEnd b n := by
  by_cases hn : n ≤ b.unread.length
  · have hlen : (b.unread.take n).length = n := by rw [List.length_take]; omega
    rw [Prog.Faults.bind_of_ok (readFix_ok h hpos hn),
      readStringBody_faults (advance_inv_of_le h hn), advance_at_capacity h hn, toNat_eq_zero]
    unfold EmptyStringAtEnd
    constructor
    · rintro ⟨hv, hfull, hall⟩
      have hzero := (fixValue_eq_zero _ hlen).mp hv
      rw [List.take_of_length_le (by omega)] at hzero
      exact ⟨hfull, hzero⟩
    · rintro ⟨hfull, hzero⟩
      have hall : b.unread.length = n := by rw [hzero, List.length_replicate]
      refine ⟨(fixValue_eq_zero _ hlen).mpr ?_, hfull, hall⟩
      rw [List.take_of_length_le (by omega), hzero]
  · have hno := Prog.Faults.bind_of_thrown (f := fun len => readStringBody len.toNat)
      (readFix_short h (by omega : b.unread.length < n))
    refine iff_of_false hno ?_
    rintro ⟨-, hzero⟩
    rw [hzero, List.length_replicate] at hn
    omega

/-! ### The length field of `readStringVint` -/

theorem decodeVar_result {w : Nat} {is : List Nat} {result : BitVec w} {d : List UInt8} {n : Nat}
    (h : decodeVar is result d = some (0, n)) : result = 0 := by
  induction is generalizing result d n with
  | nil =>
    cases h
    rfl
  | cons i is ih =>
    cases d with
    | nil => cases h
    | cons x d =>
      rw [decodeVar] at h
      split at h
      · have hv := congrArg Prod.fst (Option.some.inj h)
        exact (BitVec.or_eq_zero_iff.mp hv).1
      · split at h
        · cases h
        · rename_i v' n' hrec
          cases h
          exact (BitVec.or_eq_zero_iff.mp (ih hrec)).1

/-- Seven payload bits that all fit below the width vanish only if they are zero. -/
theorem shiftLeft_eq_zero {x : BitVec 8} {i : Nat} (hx : x < 0x80) (hi : i + 7 ≤ 64) :
    x.setWidth 64 <<< i = 0 ↔ x = 0 := by
  constructor
  · intro h
    have hlt : x.toNat < 2 ^ 7 := hx
    have hpow : 2 ^ 7 * 2 ^ i ≤ 2 ^ 64 := by
      rw [← Nat.pow_add]
      exact Nat.pow_le_pow_right (by decide) (by omega)
    have hmul : x.toNat * 2 ^ i < 2 ^ 64 :=
      Nat.lt_of_lt_of_le (Nat.mul_lt_mul_of_pos_right hlt (Nat.two_pow_pos i)) hpow
    have hz := congrArg BitVec.toNat h
    rw [BitVec.toNat_shiftLeft, BitVec.toNat_setWidth, Nat.shiftLeft_eq,
      Nat.mod_eq_of_lt (by omega : x.toNat < 2 ^ 64), Nat.mod_eq_of_lt hmul] at hz
    have hxz : x.toNat = 0 := by
      rcases Nat.mul_eq_zero.mp hz with h0 | h0
      · exact h0
      · exact absurd h0 (Nat.ne_of_gt (Nat.two_pow_pos i))
    exact toNat_eq_zero.mp hxz
  · rintro rfl
    simp

theorem payload_toNat (x : BitVec 8) : (x &&& 0x7f).toNat = x.toNat % 128 := by
  rw [BitVec.toNat_and]
  exact Nat.and_two_pow_sub_one_eq_mod x.toNat 7

/-- One byte of the length field: unless all 64 bits are taken, it is a zero byte that ends the
field or a continuation byte without payload. -/
theorem decodeVar_zero_cons {is : List Nat} {i n : Nat} {x : UInt8} {d : List UInt8}
    (hi : i + 7 ≤ 64) :
    decodeVar (i :: is) (0 : BitVec 64) (x :: d) = some (0, n + 1) ↔
      (x = 0 ∧ n = 0) ∨ (x = 0x80 ∧ decodeVar is (0 : BitVec 64) d = some (0, n)) := by
  have hor : ∀ v : BitVec 64, 0 ||| v = v := fun v => BitVec.zero_or
  rw [decodeVar, hor, hor]
  by_cases hx : x.toBitVec < 0x80
  · have hne : x ≠ 0x80 := by
      rintro rfl
      exact absurd hx (by decide)
    have hzero : x.toBitVec = 0 ↔ x = 0 := by
      rw [← UInt8.toBitVec_inj]
      rfl
    rw [if_pos hx, Option.some.injEq, Prod.mk.injEq, shiftLeft_eq_zero hx hi, hzero]
    simp only [hne, false_and, or_false, and_congr_right_iff]
    omega
  · have hne : x ≠ 0 := by
      rintro rfl
      exact hx (by decide)
    -- the payload of a continuation byte is zero only for `0x80`
    have hpayload : x.toBitVec &&& 0x7f < 0x80 ∧ (x.toBitVec &&& 0x7f = 0 ↔ x = 0x80) := by
      have hge : 128 ≤ x.toNat := Nat.le_of_not_lt hx
      have hlt := x.toNat_lt
      have hmod : (x.toBitVec &&& 0x7f).toNat = x.toNat % 128 := payload_toNat x.toBitVec
      constructor
      · change (x.toBitVec &&& 0x7f).toNat < 128
        omega
      · rw [← toNat_eq_zero, ← UInt8.toNat_inj, hmod]
        change x.toNat % 128 = 0 ↔ x.toNat = 128
        omega
    rw [if_neg hx]
    simp only [hne, false_and, false_or]
    constructor
    · intro h
      cases hrec : decodeVar is ((x.toBitVec &&& 0x7f).setWidth 64 <<< i) d with
      | none =>
        rw [hrec] at h
        cases h
      | some p =>
        obtain ⟨v, m⟩ := p
        rw [hrec] at h
        cases h
        have hz := decodeVar_result hrec
        rw [hz] at hrec
        exact ⟨hpayload.2.mp ((shiftLeft_eq_zero hpayload.1 hi).mp hz), hrec⟩
    · rintro ⟨hx', hrec⟩
      rw [(shiftLeft_eq_zero hpayload.1 hi).mpr (hpayload.2.mpr hx'), hrec]

/-- The tenth byte: its lowest bit is the only one left. -/
theorem decodeVar_zero_last {n : Nat} {x : UInt8} {d : List UInt8} :
    decodeVar [63] (0 : BitVec 64) (x :: d) = some (0, n + 1) ↔ x.toNat % 2 = 0 ∧ n = 0 := by
  have hor : ∀ v : BitVec 64, 0 ||| v = v := fun v => BitVec.zero_or
  have hbit : (x.toBitVec.setWidth 64 <<< 63 = 0 ↔ x.toNat % 2 = 0) ∧
      ((x.toBitVec &&& 0x7f).setWidth 64 <<< 63 = 0 ↔ x.toNat % 2 = 0) := by
    have hshift : ∀ y : BitVec 8, y.setWidth 64 <<< 63 = 0 ↔ y.toNat % 2 = 0 := by
      intro y
      have hy := y.isLt
      rw [← toNat_eq_zero, BitVec.toNat_shiftLeft, BitVec.toNat_setWidth, Nat.shiftLeft_eq]
      omega
    rw [hshift, hshift, payload_toNat, UInt8.toNat_toBitVec]
    omega
  rw [decodeVar, hor, hor, decodeVar]
  split
  · rw [Option.some.injEq, Prod.mk.injEq, hbit.1]
    omega
  · rw [Option.some.injEq, Prod.mk.injEq, hbit.2]
    omega

theorem decodeVar_zero_iff {d : List UInt8} :
    decodeVar [0, 7, 14, 21, 28, 35, 42, 49, 56, 63] (0 : BitVec 64) d = some (0, d.length) ↔
      ZeroVint 9 d := by
  -- one continuation byte more, one shift more in front
  have hcons : ∀ (k i : Nat) (is : List Nat), i + 7 ≤ 64 →
      (∀ d, decodeVar is (0 : BitVec 64) d = some (0, d.length) ↔ ZeroVint k d) →
      ∀ d, decodeVar (i :: is) (0 : BitVec 64) d = some (0, d.length) ↔ ZeroVint (k + 1) d := by
    intro k i is hi ih d
    cases d with
    | nil => simp [decodeVar, ZeroVint]
    | cons x d =>
      rw [List.length_cons, decodeVar_zero_cons hi, ih, ZeroVint, List.length_eq_zero_iff]
  have hlast : ∀ d, decodeVar [63] (0 : BitVec 64) d = some (0, d.length) ↔ ZeroVint 0 d := by
    intro d
    cases d with
    | nil => simp [decodeVar, ZeroVint]
    | cons x d =>
      rw [List.length_cons, decodeVar_zero_last]
      cases d with
      | nil => simp [ZeroVint]
      | cons y d => simp [ZeroVint]
  exact hcons 8 0 _ (by decide) (hcons 7 7 _ (by decide) (hcons 6 14 _ (by decide)
    (hcons 5 21 _ (by decide) (hcons 4 28 _ (by decide) (hcons 3 35 _ (by decide)
    (hcons 2 42 _ (by decide) (hcons 1 49 _ (by decide) (hcons 0 56 _ (by decide) hlast))))))))
    d

theorem readStringVint_faults {b : ByteArray} (h : Inv b) :
    Prog.Faults readStringVint b ↔ b.size = b.capacity ∧ ZeroVint 9 b.unread := by
  obtain ⟨hok, hno⟩ := readVarLoop_eq h [0, 7, 14, 21, 28, 35, 42, 49, 56, 63] (0 : BitVec 64)
  rw [← decodeVar_zero_iff]
  cases hd : decodeVar [0, 7, 14, 21, 28, 35, 42, 49, 56, 63] (0 : BitVec 64) b.unread with
  | none =>
    obtain ⟨b', hrun⟩ := hno hd
    refine iff_of_false (Prog.Faults.bind_of_thrown hrun) ?_
    rintro ⟨-, hc⟩
    cases hc
  | some p =>
    obtain ⟨v, n⟩ := p
    have hn := decodeVar_le hd
    have hrun := Prog.Faults.bind_of_ok (f := fun len : BitVec 64 => readStringBody len.toNat)
      (hok v n hd)
    rw [readStringVint, readUint64, hrun, readStringBody_faults (advance_inv_of_le h hn),
      advance_at_capacity h hn, toNat_eq_zero, Option.some.injEq, Prod.mk.injEq]
    constructor
    · rintro ⟨hv, hfull, hall⟩
      exact ⟨hfull, hv, hall.symm⟩
    · rintro ⟨hfull, hv, hall⟩
      exact ⟨hv, hfull, hall.symm⟩

/-! ## Every public member -/

theorem writeFix_no_fault {b : ByteArray} (h : Inv b) (n : Nat) (v : BitVec (8 * n)) :
    ¬ Prog.Faults (writeFix n v) b :=
  Prog.Faults.not_bind h (Prog.Keeps.gets _) (Prog.Faults.not_gets _ _) fun _ _ h' =>
    write_no_fault h' _

theorem readFix_no_fault {b : ByteArray} (h : Inv b) {n : Nat} (hpos : 0 < n) :
    ¬ Prog.Faults (readFix n) b := by
  by_cases hn : n ≤ b.unread.length
  · exact Prog.Faults.of_ok (readFix_ok h hpos hn)
  · exact Prog.Faults.of_thrown (readFix_short h (by omega))

theorem readFixUint8_no_fault {b : ByteArray} (h : Inv b) : ¬ Prog.Faults readFixUint8 b := by
  cases hu : b.unread with
  | nil => exact Prog.Faults.of_thrown (readFixUint8_short h hu)
  | cons x d => exact Prog.Faults.of_ok (readFixUint8_ok h hu)

theorem readVarLoop_no_fault {w : Nat} {b : ByteArray} (h : Inv b) (is : List Nat)
    (result : BitVec w) : ¬ Prog.Faults (readVarLoop is result) b := by
  obtain ⟨hok, hno⟩ := readVarLoop_eq h is result
  cases hd : decodeVar is result b.unread with
  | none =>
    obtain ⟨b', hrun⟩ := hno hd
    exact Prog.Faults.of_thrown hrun
  | some p => exact Prog.Faults.of_ok (hok p.1 p.2 hd)

theorem readFromFile_no_fault {b : ByteArray} (h : Inv b) (reads : List (List UInt8)) :
    ¬ Prog.Faults (readFromFile reads) b := by
  induction reads generalizing b with
  | nil => exact Prog.Faults.not_pure _ _
  | cons d reads ih =>
    exact Prog.Faults.not_bind h (write_keeps d) (write_no_fault h d) fun _ _ h' => ih h'

theorem setPosition_no_fault {b : ByteArray} (h : Inv b) (pos : Nat) :
    ¬ Prog.Faults (setPosition pos) b := by
  by_cases hlt : b.capacity < pos
  · exact Prog.Faults.of_thrown (by rw [setPosition_eq h, if_pos hlt])
  · exact Prog.Faults.of_ok (by rw [setPosition_eq h, if_neg hlt])

/-- A member dereferences no null node exactly when `NoNull` holds. -/
theorem exec_no_fault {b : ByteArray} (h : Inv b) (op : Op) :
    ¬ Prog.Faults (exec op) b ↔ NoNull b op := by
  cases op
  case read => exact (not_congr (drop_faults.trans (read_faults h _)))
  case readAt => exact (not_congr drop_faults).trans (readAt_faults h _ _)
  case getReadBuffersAt => exact (not_congr drop_faults).trans (getReadBuffersAt_faults h _ _)
  case writeToFile => exact (not_congr drop_faults).trans (writeToFile_faults h)
  case readStringFix16 =>
    exact not_congr (drop_faults.trans (readStringFix_faults h (by decide : 0 < 2)))
  case readStringFix32 =>
    exact not_congr (drop_faults.trans (readStringFix_faults h (by decide : 0 < 4)))
  case readStringFix64 =>
    exact not_congr (drop_faults.trans (readStringFix_faults h (by decide : 0 < 8)))
  case readStringVint => exact not_congr (drop_faults.trans (readStringVint_faults h))
  -- all other members are unconditionally safe
  all_goals refine iff_of_true ?_ trivial
  case clear => exact Prog.Faults.of_ok rfl
  case setPosition => exact setPosition_no_fault h _
  case setLittleEndian => exact Prog.Faults.of_ok rfl
  case readFromFile => exact readFromFile_no_fault h _
  case toString => exact mt drop_faults.mp (toString_no_fault h)
  case getReadBuffers => exact mt drop_faults.mp (getReadBuffers_no_fault h _)
  case getWriteBuffers => exact mt drop_faults.mp (getWriteBuffers_no_fault h _)
  case writeStringFix16 =>
    exact Prog.Faults.not_bind h (inv_closed.writeFix 2 _) (writeFix_no_fault h 2 _)
      fun _ _ h' => write_no_fault h' _
  case writeStringFix32 =>
    exact Prog.Faults.not_bind h (inv_closed.writeFix 4 _) (writeFix_no_fault h 4 _)
      fun _ _ h' => write_no_fault h' _
  case writeStringFix64 =>
    exact Prog.Faults.not_bind h (inv_closed.writeFix 8 _) (writeFix_no_fault h 8 _)
      fun _ _ h' => write_no_fault h' _
  case writeStringVint =>
    exact Prog.Faults.not_bind h (write_keeps _) (write_no_fault h _)
      fun _ _ h' => write_no_fault h' _
  case readInt32 =>
    exact mt drop_faults.mp (Prog.Faults.not_bind h (inv_closed.readVarLoop _ _)
      (readVarLoop_no_fault h _ _) fun _ _ _ => Prog.Faults.not_pure _ _)
  case readInt64 =>
    exact mt drop_faults.mp (Prog.Faults.not_bind h (inv_closed.readVarLoop _ _)
      (readVarLoop_no_fault h _ _) fun _ _ _ => Prog.Faults.not_pure _ _)
  case readUint32 => exact mt drop_faults.mp (readVarLoop_no_fault h _ _)
  case readUint64 => exact mt drop_faults.mp (readVarLoop_no_fault h _ _)
  case readFixInt8 => exact mt drop_faults.mp (readFixUint8_no_fault h)
  case readFixUint8 => exact mt drop_faults.mp (readFixUint8_no_fault h)
  case readFixInt16 => exact mt drop_faults.mp (readFix_no_fault h (by decide : 0 < 2))
  case readFixUint16 => exact mt drop_faults.mp (readFix_no_fault h (by decide : 0 < 2))
  case readFixInt32 => exact mt drop_faults.mp (readFix_no_fault h (by decide : 0 < 4))
  case readFixUint32 => exact mt drop_faults.mp (readFix_no_fault h (by decide : 0 < 4))
  case readFixInt64 => exact mt drop_faults.mp (readFix_no_fault h (by decide : 0 < 8))
  case readFixUint64 => exact mt drop_faults.mp (readFix_no_fault h (by decide : 0 < 8))
  case readFloat => exact mt drop_faults.mp (readFix_no_fault h (by decide : 0 < 4))
  case readDouble => exact mt drop_faults.mp (readFix_no_fault h (by decide : 0 < 8))
  case writeFixInt8 v => exact write_no_fault h [UInt8.ofBitVec v]
  case writeFixUint8 v => exact write_no_fault h [UInt8.ofBitVec v]
  case writeFixInt16 => exact writeFix_no_fault h 2 _
  case writeFixUint16 => exact writeFix_no_fault h 2 _
  case writeFixInt32 => exact writeFix_no_fault h 4 _
  case writeFixUint32 => exact writeFix_no_fault h 4 _
  case writeFixInt64 => exact writeFix_no_fault h 8 _
  case writeFixUint64 => exact writeFix_no_fault h 8 _
  case writeFloat => exact writeFix_no_fault h 4 _
  case writeDouble => exact writeFix_no_fault h 8 _
  case getBaseSize => exact mt drop_faults.mp (Prog.Faults.not_gets _ _)
  case getReadSize => exact mt drop_faults.mp (Prog.Faults.not_gets _ _)
  case getPosition => exact mt drop_faults.mp (Prog.Faults.not_gets _ _)
  case isLittleEndian => exact mt drop_faults.mp (Prog.Faults.not_gets _ _)
  case getSize => exact mt drop_faults.mp (Prog.Faults.not_gets _ _)
  all_goals exact write_no_fault h _

/-- **Where null nodes are met.**  In every reachable state, a public call dereferences no null
node pointer exactly when its arguments and the state satisfy `NoNull`; the calls that do fail are
the zero-length reads at the end of the capacity, the two members that take a position of their
own, and `writeToFile` from the middle of a block. -/
theorem null_safe_iff (base : Nat) (hb : 1 ≤ base) (heap : Nat → UInt8) (ops : List Op)
    (b : ByteArray) (h : runFrom step (new base heap) ops = some b) (op : Op) :
    exec op b ≠ .fault .nullDeref ↔ NoNull b op := by
  rw [← exec_no_fault (run_inv hb h) op, Prog.Faults, Outcome.state?_eq_none]
  constructor
  · rintro hne ⟨⟨⟩, hx⟩
    exact hne hx
  · intro hno hx
    exact hno ⟨_, hx⟩

/-- A zero-length read is safe while there is room left in the block. -/
theorem null_safe_before_end :
    exec (.read 0) (new 2 fun _ => 0) ≠ .fault .nullDeref :=
  (null_safe_iff 2 (by decide) (fun _ => 0) [] _ rfl (.read 0)).mpr (by simp [NoNull, new])

/-- Two bytes written into a block of two, then a read of zero bytes: `m_cur` is null. -/
theorem read_zero_at_end :
    ∃ b, runFrom step (new 2 fun _ => 0) [.write [1, 2]] = some b ∧
      exec (.read 0) b = .fault .nullDeref :=
  ⟨_, rfl, rfl⟩

end Luwu.ByteArray
