import Luwu.ByteArray.Chain

/-!
# The four cursors

`m_position`, `m_size`, `m_capacity` and `m_cur` are kept in step by every public operation: `Inv`
is their relation, `read_eq` and `write_spec` say what the two raw accesses do in a state that has
it, and everything else is built from them.
-/

namespace Luwu.ByteArray

open Lib

/-- The relation of the cursors to each other and to the chain. -/
structure Inv (b : ByteArray) : Prop where
  base_pos : 0 < b.baseSize
  uniform : Uniform b.baseSize b.nodes
  nodes_pos : 0 < b.nodes.length
  capacity_eq : b.capacity = b.nodes.length * b.baseSize
  position_le : b.position ≤ b.size
  size_le : b.size ≤ b.capacity
  cur_eq : b.cur = nodeAt b.nodes (b.position / b.baseSize)

theorem nodeAt_of_lt {nodes : List Node} {i : Nat} (h : i < nodes.length) :
    nodeAt nodes i = some i := if_pos h

theorem nodeAt_of_ge {nodes : List Node} {i : Nat} (h : nodes.length ≤ i) :
    nodeAt nodes i = none := if_neg (by omega)

@[simp] theorem newNode_size (heap : Nat → UInt8) (s : Nat) : (newNode heap s).1.size = s := rfl
@[simp] theorem newNode_length (heap : Nat → UInt8) (s : Nat) :
    (newNode heap s).1.ptr.length = s := by simp [newNode]

theorem new_inv {base : Nat} (hb : 0 < base) (heap : Nat → UInt8) : Inv (new base heap) where
  base_pos := hb
  uniform := by
    intro n hn
    rw [show n = (newNode heap base).1 from List.mem_singleton.mp hn]
    exact ⟨rfl, newNode_length heap base⟩
  nodes_pos := Nat.one_pos
  capacity_eq := (Nat.one_mul base).symm
  position_le := Nat.le_refl 0
  size_le := Nat.zero_le _
  cur_eq := by simp [new, nodeAt]

namespace Inv

variable {b : ByteArray}

/-- The position lies in an existing block unless it is the capacity. -/
theorem div_lt (h : Inv b) (hp : b.position < b.capacity) :
    b.position / b.baseSize < b.nodes.length := by
  rw [Nat.div_lt_iff_lt_mul h.base_pos, ← h.capacity_eq]
  exact hp

theorem div_eq (h : Inv b) (hp : b.position = b.capacity) :
    b.position / b.baseSize = b.nodes.length := by
  rw [hp, h.capacity_eq, Nat.mul_div_cancel _ h.base_pos]

theorem cur_some (h : Inv b) (hp : b.position < b.capacity) :
    b.cur = some (b.position / b.baseSize) := by
  rw [h.cur_eq, nodeAt_of_lt (h.div_lt hp)]

theorem cur_none (h : Inv b) (hp : b.position = b.capacity) : b.cur = none := by
  rw [h.cur_eq, nodeAt_of_ge (Nat.le_of_eq (h.div_eq hp).symm)]

theorem position_le_capacity (h : Inv b) : b.position ≤ b.capacity :=
  Nat.le_trans h.position_le h.size_le

theorem length_flat (h : Inv b) : (flat b.nodes).length = b.capacity := by
  rw [h.uniform.length_flat, h.capacity_eq]

/-- `m_position` as a block index and an offset into that block. -/
theorem position_split (b : ByteArray) :
    b.position / b.baseSize * b.baseSize + b.position % b.baseSize = b.position := by
  rw [Nat.mul_comm]
  exact Nat.div_add_mod _ _

theorem mod_lt (h : Inv b) (p : Nat) : p % b.baseSize < b.baseSize := Nat.mod_lt _ h.base_pos

theorem rest_capacity (h : Inv b) :
    (b.nodes.drop (b.position / b.baseSize)).length * b.baseSize =
      b.capacity - b.position / b.baseSize * b.baseSize := by
  rw [List.length_drop, Nat.sub_mul, h.capacity_eq]

end Inv

/-! ## Growth -/

theorem addNode_iterate (b : ByteArray) (k : Nat) :
    ∃ more, (addNode^[k] b).nodes = b.nodes ++ more ∧ Uniform b.baseSize more ∧
      more.length = k ∧ (addNode^[k] b).capacity = b.capacity + k * b.baseSize ∧
      (addNode^[k] b).baseSize = b.baseSize ∧ (addNode^[k] b).position = b.position ∧
      (addNode^[k] b).size = b.size ∧ (addNode^[k] b).endian = b.endian ∧
      (addNode^[k] b).cur = b.cur := by
  induction k with
  | zero =>
    refine ⟨[], (List.append_nil _).symm, ?_, rfl, ?_, rfl, rfl, rfl, rfl, rfl⟩
    · intro n hn
      exact absurd hn List.not_mem_nil
    · rw [Nat.zero_mul]
      rfl
  | succ k ih =>
    obtain ⟨more, hnodes, huni, hlen, hcap, hbase, hpos, hsize, hend, hcur⟩ := ih
    rw [Function.iterate_succ_apply']
    -- one more block at the end
    refine ⟨more ++ [(newNode (addNode^[k] b).heap b.baseSize).1], ?_, ?_, ?_, ?_, ?_, ?_, ?_, ?_,
      ?_⟩
    · rw [addNode, hbase, hnodes, ← List.append_assoc]
    · refine huni.append ?_
      intro n hn
      rw [List.mem_singleton.mp hn]
      exact ⟨newNode_size _ _, newNode_length _ _⟩
    · rw [List.length_append, hlen, List.length_singleton]
    · rw [addNode, hbase, hcap, Nat.succ_mul, Nat.add_assoc]
    · exact hbase
    · exact hpos
    · exact hsize
    · exact hend
    · exact hcur

/-- `count` blocks are enough for `n` bytes. -/
theorem le_count_mul {base n : Nat} (hb : 0 < base) :
    n ≤ (n / base + if n % base ≠ 0 then 1 else 0) * base := by
  have h := Nat.div_add_mod n base
  rw [Nat.mul_comm] at h
  split
  · rename_i hr
    have hlt := Nat.mod_lt n hb
    rw [Nat.add_mul, Nat.one_mul]
    omega
  · rename_i hr
    rw [Nat.add_zero]
    omega

theorem addNode_inv {b : ByteArray} (h : Inv b) (k : Nat) {cur : Option Nat}
    (hc : cur = nodeAt (addNode^[k] b).nodes (b.position / b.baseSize)) :
    Inv { addNode^[k] b with cur := cur } := by
  obtain ⟨more, hnodes, huni, hlen, hcap, hbase, hpos, hsize, -, -⟩ := addNode_iterate b k
  refine ⟨?_, ?_, ?_, ?_, ?_, ?_, ?_⟩ <;> dsimp only
  · rw [hbase]
    exact h.base_pos
  · rw [hbase, hnodes]
    exact h.uniform.append huni
  · rw [hnodes, List.length_append]
    have := h.nodes_pos
    omega
  · rw [hcap, hnodes, hbase, List.length_append, Nat.add_mul, hlen, h.capacity_eq]
  · rw [hpos, hsize]
    exact h.position_le
  · rw [hsize, hcap]
    have := h.size_le
    omega
  · rw [hc, hpos, hbase]

theorem addCapacity_baseSize (b : ByteArray) (size : Nat) :
    (b.addCapacity size).baseSize = b.baseSize := by
  have hiter (k : Nat) : (addNode^[k] b).baseSize = b.baseSize := by
    obtain ⟨_, -, -, -, -, hbase, -⟩ := addNode_iterate b k
    exact hbase
  unfold addCapacity
  dsimp only
  split
  · rfl
  · split <;> exact hiter _

/-- `addCapacity` makes room behind the position and changes no byte of the array. -/
theorem addCapacity_spec {b : ByteArray} (h : Inv b) (size : Nat) :
    Inv (b.addCapacity size) ∧ b.position + size ≤ (b.addCapacity size).capacity ∧
      (b.addCapacity size).baseSize = b.baseSize ∧ (b.addCapacity size).position = b.position ∧
      (b.addCapacity size).size = b.size ∧ (b.addCapacity size).endian = b.endian ∧
      ∃ more, (b.addCapacity size).nodes = b.nodes ++ more := by
  have hpc := h.position_le_capacity
  unfold addCapacity getCapacity
  dsimp only
  by_cases hle : size ≤ b.capacity - b.position
  · rw [if_pos hle]
    exact ⟨h, by omega, rfl, rfl, rfl, rfl, [], (List.append_nil _).symm⟩
  · rw [if_neg hle]
    have hroom := le_count_mul (n := size - (b.capacity - b.position)) h.base_pos
    generalize (size - (b.capacity - b.position)) / b.baseSize +
      (if (size - (b.capacity - b.position)) % b.baseSize ≠ 0 then 1 else 0) = count at hroom ⊢
    obtain ⟨more, hnodes, -, -, hcap, hbase, hpos, hsize, hend, hcur⟩ := addNode_iterate b count
    by_cases hold : b.capacity - b.position = 0
    · -- `m_cur` was null, and is the first new block
      rw [if_pos hold]
      refine ⟨addNode_inv h count ?_, ?_, hbase, hpos, hsize, hend, more, hnodes⟩
      · rw [h.div_eq (by omega)]
      · dsimp only
        omega
    · rw [if_neg hold]
      have hlt := h.div_lt (by omega : b.position < b.capacity)
      -- `m_cur` stays what it was
      have hcur' : (addNode^[count] b).cur =
          nodeAt (addNode^[count] b).nodes (b.position / b.baseSize) := by
        rw [hcur, h.cur_eq, hnodes, nodeAt_of_lt hlt,
          nodeAt_of_lt (by rw [List.length_append]; omega)]
      exact ⟨addNode_inv h count hcur', by omega, hbase, hpos, hsize, hend, more, hnodes⟩

/-! ## Raw access -/

/-- Step `n` bytes forward. -/
def advance (b : ByteArray) (n : Nat) : ByteArray :=
  { b with position := b.position + n
           cur := nodeAt b.nodes ((b.position + n) / b.baseSize) }

theorem advance_inv {b : ByteArray} (h : Inv b) {n : Nat} (hn : b.position + n ≤ b.size) :
    Inv (b.advance n) :=
  ⟨h.base_pos, h.uniform, h.nodes_pos, h.capacity_eq, hn, h.size_le, rfl⟩

/-- The block index after `n` bytes from the position on. -/
theorem div_add_mod_div {base p n : Nat} (hb : 0 < base) :
    p / base + (p % base + n) / base = (p + n) / base := by
  conv_rhs => rw [← Nat.div_add_mod p base, Nat.add_assoc, Nat.add_comm,
    Nat.add_mul_div_left _ _ hb, Nat.add_comm]

theorem drop_flat_rest {b : ByteArray} (h : Inv b) :
    (flat (b.nodes.drop (b.position / b.baseSize))).drop (b.position % b.baseSize) =
      (flat b.nodes).drop b.position := by
  rw [h.uniform.flat_drop, List.drop_drop, Inv.position_split]

/-- The block-splitting read is a slice of the memory; it dereferences a null `m_cur` exactly for
zero bytes at the end of the capacity. -/
theorem read_eq {b : ByteArray} (h : Inv b) (size : Nat) :
    read size b =
      if b.size - b.position < size then .thrown (.outOfRange "not enough length") b
      else if size = 0 ∧ b.position = b.capacity then .fault .nullDeref
      else .ok (((flat b.nodes).drop b.position).take size) (b.advance size) := by
  have hpl := h.position_le
  have hsl := h.size_le
  unfold read getReadSize
  by_cases hlt : b.size - b.position < size
  · rw [if_pos hlt, if_pos hlt]
  · rw [if_neg hlt, if_neg hlt]
    by_cases hpc : b.position < b.capacity
    · rw [h.cur_some hpc, if_neg (by omega)]
      have hsplit := Inv.position_split b
      have hrest := h.rest_capacity
      simp only []
      rw [readLoop_eq (h.uniform.drop _) (h.mod_lt _) (by omega), drop_flat_rest h]
      simp only [div_add_mod_div h.base_pos]
      rfl
    · rw [h.cur_none (by omega), if_pos (by omega)]

theorem write_nil (b : ByteArray) : write [] b = .ok () b := rfl

/-- The block-splitting write is an overwrite of the memory, once that has room for the bytes. -/
theorem write_run {b : ByteArray} (h : Inv b) {d : List UInt8} (hd : d ≠ []) :
    ∃ b', write d b = .ok () b' ∧ Inv b' ∧ b'.baseSize = b.baseSize ∧
      b'.endian = b.endian ∧ b'.position = b.position + d.length ∧
      b'.size = max b.size (b.position + d.length) ∧
      b'.capacity = (b.addCapacity d.length).capacity ∧
      b'.heap = (b.addCapacity d.length).heap ∧
      flat b'.nodes = splice (flat (b.addCapacity d.length).nodes) b.position d := by
  obtain ⟨hg, hroom, hbase, hpos, hsize, hend, -⟩ := addCapacity_spec h d.length
  have hdl : 0 < d.length := List.length_pos_iff.mpr hd
  unfold write
  rw [if_neg hd]
  -- `g` is the array with room for the bytes
  generalize b.addCapacity d.length = g at *
  have hlt : g.position < g.capacity := by omega
  have hsplit := Inv.position_split g
  have hrest := hg.rest_capacity
  have hi := hg.div_lt hlt
  obtain ⟨blocks, hrun, huni, hlen, hflat⟩ := writeLoop_eq
    (hg.uniform.drop (g.position / g.baseSize)) hd (hg.mod_lt g.position) (by omega)
  have hnodeslen : (g.nodes.take (g.position / g.baseSize) ++ blocks).length =
      g.nodes.length := by
    rw [List.length_append, List.length_take, hlen, List.length_drop]
    omega
  simp only [hg.cur_some hlt, hrun]
  refine ⟨_, rfl, ⟨hg.base_pos, ?_, ?_, ?_, ?_, ?_, ?_⟩, hbase, hend, ?_, ?_, rfl, rfl, ?_⟩
  · exact (hg.uniform.take _).append huni
  · rw [hnodeslen]
    exact hg.nodes_pos
  · rw [hnodeslen]
    exact hg.capacity_eq
  · exact Nat.le_max_right _ _
  · change max g.size (g.position + d.length) ≤ g.capacity
    have := hg.size_le
    omega
  · change nodeAt _ (_ + _) = nodeAt _ ((g.position + d.length) / g.baseSize)
    rw [div_add_mod_div hg.base_pos]
  · change g.position + d.length = b.position + d.length
    rw [hpos]
  · change max g.size (g.position + d.length) = _
    rw [hsize, hpos]
  · -- the nodes in front of the cursor are not touched, so the memory changes from the cursor on
    have htake : (flat (g.nodes.take (g.position / g.baseSize))).length =
        g.position / g.baseSize * g.baseSize := by
      rw [(hg.uniform.take _).length_flat, List.length_take]
      congr 1
      omega
    rw [flat_append, hflat, ← hpos]
    conv_rhs => rw [← List.take_append_drop (g.position / g.baseSize) g.nodes, flat_append]
    rw [splice_append_right (by omega), htake]
    congr 2
    omega

theorem write_spec {b : ByteArray} (h : Inv b) {d : List UInt8} (hd : d ≠ []) :
    ∃ b' more, write d b = .ok () b' ∧ Inv b' ∧ b'.baseSize = b.baseSize ∧
      b'.endian = b.endian ∧ b'.position = b.position + d.length ∧
      b'.size = max b.size (b.position + d.length) ∧
      flat b'.nodes = splice (flat b.nodes ++ more) b.position d := by
  obtain ⟨b', hrun, hinv, hbase, hend, hpos, hsize, -, -, hflat⟩ := write_run h hd
  obtain ⟨-, -, -, -, -, -, new, hnodes⟩ := addCapacity_spec h d.length
  rw [hnodes, flat_append] at hflat
  exact ⟨b', flat new, hrun, hinv, hbase, hend, hpos, hsize, hflat⟩

/-! ## Every public operation keeps the invariant -/

theorem write_keeps (d : List UInt8) : Prog.Keeps Inv (write d) := by
  intro b h b' hr
  by_cases hd : d = []
  · subst hd
    cases hr
    exact h
  · obtain ⟨b'', _, hrun, hinv, _⟩ := write_spec h hd
    rw [hrun] at hr
    cases hr
    exact hinv

theorem read_keeps (size : Nat) : Prog.Keeps Inv (read size) := by
  intro b h b' hr
  rw [read_eq h] at hr
  split at hr
  · cases hr
    exact h
  · split at hr
    · cases hr
    · rename_i hlt _
      cases hr
      have := h.position_le
      exact advance_inv h (by omega)

theorem setPosition_eq {b : ByteArray} (h : Inv b) (pos : Nat) :
    setPosition pos b =
      if b.capacity < pos then .thrown (.outOfRange "set_position out of range") b
      else .ok () { b with position := pos, size := max b.size pos
                           cur := nodeAt b.nodes (pos / b.baseSize) } := by
  unfold setPosition
  by_cases hlt : b.capacity < pos
  · rw [if_pos hlt, if_pos hlt]
  · rw [if_neg hlt, if_neg hlt, seekLoop_eq h.uniform h.base_pos
      (List.length_pos_iff.mp h.nodes_pos) (by rw [← h.capacity_eq]; omega)]

theorem setPosition_keeps (pos : Nat) : Prog.Keeps Inv (setPosition pos) := by
  intro b h b' hr
  rw [setPosition_eq h] at hr
  split at hr
  · cases hr
    exact h
  · rename_i hle
    cases hr
    refine ⟨h.base_pos, h.uniform, h.nodes_pos, h.capacity_eq, Nat.le_max_right _ _, ?_, rfl⟩
    exact Nat.max_le.mpr ⟨h.size_le, Nat.le_of_not_lt hle⟩

theorem clear_keeps : Prog.Keeps Inv clear := by
  intro b h b' hr
  cases hr
  have hlen : (b.nodes.take 1).length = 1 := by
    rw [List.length_take]
    have := h.nodes_pos
    omega
  refine ⟨h.base_pos, h.uniform.take 1, ?_, ?_, Nat.le_refl 0, Nat.zero_le _, ?_⟩
  · rw [hlen]
    exact Nat.one_pos
  · change b.baseSize = (b.nodes.take 1).length * b.baseSize
    rw [hlen, Nat.one_mul]
  · change nodeAt _ 0 = nodeAt _ (0 / b.baseSize)
    rw [Nat.zero_div]

/-- A `const` member leaves the array as it is. -/
def Const {α : Type} (m : M α) : Prop := ∀ b b', (m b).state? = some b' → b' = b

theorem Const.keeps {P : ByteArray → Prop} {α : Type} {m : M α} (hm : Const m) :
    Prog.Keeps P m := by
  intro b h b' hr
  rw [hm b b' hr]
  exact h

theorem readAt_const (size position : Nat) : Const (readAt size position) := by
  intro b b' hr
  unfold readAt at hr
  repeat' split at hr
  all_goals cases hr <;> rfl

theorem toString_const : Const toString := by
  intro b b' hr
  unfold toString at hr
  split at hr
  · cases hr
    rfl
  · exact readAt_const _ _ b b' hr

theorem getReadBuffers_const (len : Nat) : Const (getReadBuffers len) := by
  intro b b' hr
  unfold getReadBuffers at hr
  dsimp only at hr
  generalize (if b.getReadSize < len then b.getReadSize else len) = n at hr
  repeat' split at hr
  all_goals cases hr <;> rfl

theorem getReadBuffersAt_const (len position : Nat) : Const (getReadBuffersAt len position) := by
  intro b b' hr
  unfold getReadBuffersAt at hr
  dsimp only at hr
  generalize (if b.getReadSize < len then b.getReadSize else len) = n at hr
  repeat' split at hr
  all_goals cases hr <;> rfl

theorem writeToFile_const : Const writeToFile := by
  intro b b' hr
  unfold writeToFile at hr
  repeat' split at hr
  all_goals cases hr <;> rfl

theorem getWriteBuffers_keeps (len : Nat) : Prog.Keeps Inv (getWriteBuffers len) := by
  intro b h b' hr
  have hg := (addCapacity_spec h len).1
  unfold getWriteBuffers at hr
  dsimp only at hr
  split at hr
  · cases hr
    exact h
  · repeat' split at hr
    all_goals cases hr <;> exact hg

theorem setLittleEndian_keeps (v : Bool) : Prog.Keeps Inv (setLittleEndian v) :=
  Prog.Keeps.modify fun _ h =>
    ⟨h.base_pos, h.uniform, h.nodes_pos, h.capacity_eq, h.position_le, h.size_le, h.cur_eq⟩

/-- The members that change the array themselves keep `P`; all others go through them. -/
structure Closed (P : ByteArray → Prop) : Prop where
  write : ∀ d, Prog.Keeps P (ByteArray.write d)
  read : ∀ size, Prog.Keeps P (ByteArray.read size)
  setPosition : ∀ pos, Prog.Keeps P (ByteArray.setPosition pos)
  clear : Prog.Keeps P ByteArray.clear
  setLittleEndian : ∀ v, Prog.Keeps P (ByteArray.setLittleEndian v)
  getWriteBuffers : ∀ len, Prog.Keeps P (ByteArray.getWriteBuffers len)

theorem inv_closed : Closed Inv :=
  ⟨write_keeps, read_keeps, setPosition_keeps, clear_keeps, setLittleEndian_keeps,
    getWriteBuffers_keeps⟩

section Closed

variable {P : ByteArray → Prop} (hP : Closed P)
include hP

theorem Closed.writeFix (n : Nat) (v : BitVec (8 * n)) : Prog.Keeps P (writeFix n v) :=
  Prog.Keeps.bind (Prog.Keeps.gets _) fun _ => hP.write _

theorem Closed.readFix (n : Nat) : Prog.Keeps P (readFix n) :=
  Prog.Keeps.bind (hP.read n) fun _ =>
    Prog.Keeps.bind (Prog.Keeps.gets _) fun _ => Prog.Keeps.pure _

theorem Closed.readFixUint8 : Prog.Keeps P readFixUint8 :=
  Prog.Keeps.bind (hP.read 1) fun _ => Prog.Keeps.pure _

theorem Closed.readVarLoop {w : Nat} (is : List Nat) (result : BitVec w) :
    Prog.Keeps P (readVarLoop is result) := by
  induction is generalizing result with
  | nil => exact Prog.Keeps.pure _
  | cons i is ih =>
    exact Prog.Keeps.bind hP.readFixUint8 fun _ => Prog.Keeps.ite (Prog.Keeps.pure _) (ih _)

theorem Closed.readStringBody (len : Nat) : Prog.Keeps P (readStringBody len) :=
  Prog.Keeps.ite (Prog.Keeps.throw _) (hP.read len)

theorem Closed.readFromFile (reads : List (List UInt8)) : Prog.Keeps P (readFromFile reads) := by
  induction reads with
  | nil => exact Prog.Keeps.pure _
  | cons d reads ih => exact Prog.Keeps.bind (hP.write d) fun _ => ih

omit hP in
theorem drop_keeps {α : Type} {m : M α} (hm : Prog.Keeps P m) : Prog.Keeps P (drop m) :=
  Prog.Keeps.bind hm fun _ => Prog.Keeps.pure _

theorem Closed.exec (op : Op) : Prog.Keeps P (exec op) := by
  cases op
  case writeStringFix16 => exact Prog.Keeps.bind (hP.writeFix 2 _) fun _ => hP.write _
  case writeStringFix32 => exact Prog.Keeps.bind (hP.writeFix 4 _) fun _ => hP.write _
  case writeStringFix64 => exact Prog.Keeps.bind (hP.writeFix 8 _) fun _ => hP.write _
  case writeStringVint => exact Prog.Keeps.bind (hP.write _) fun _ => hP.write _
  case readStringFix16 =>
    exact drop_keeps (Prog.Keeps.bind (hP.readFix 2) fun _ => hP.readStringBody _)
  case readStringFix32 =>
    exact drop_keeps (Prog.Keeps.bind (hP.readFix 4) fun _ => hP.readStringBody _)
  case readStringFix64 =>
    exact drop_keeps (Prog.Keeps.bind (hP.readFix 8) fun _ => hP.readStringBody _)
  case readStringVint =>
    exact drop_keeps (Prog.Keeps.bind (hP.readVarLoop _ _) fun _ => hP.readStringBody _)
  case clear => exact hP.clear
  case setPosition => exact hP.setPosition _
  case setLittleEndian => exact hP.setLittleEndian _
  case readFromFile => exact hP.readFromFile _
  case read => exact drop_keeps (hP.read _)
  case readAt => exact drop_keeps (readAt_const _ _).keeps
  case writeToFile => exact drop_keeps writeToFile_const.keeps
  case toString => exact drop_keeps toString_const.keeps
  case getReadBuffers => exact drop_keeps (getReadBuffers_const _).keeps
  case getReadBuffersAt => exact drop_keeps (getReadBuffersAt_const _ _).keeps
  case getWriteBuffers => exact drop_keeps (hP.getWriteBuffers _)
  -- The remaining members are one numeric write, one numeric read or a getter.
  all_goals simp only [ByteArray.exec, ByteArray.writeFixInt8, ByteArray.writeFixUint8,
    ByteArray.writeFixInt16, ByteArray.writeFixUint16, ByteArray.writeFixInt32,
    ByteArray.writeFixUint32, ByteArray.writeFixInt64, ByteArray.writeFixUint64,
    ByteArray.writeInt32, ByteArray.writeUint32, ByteArray.writeInt64, ByteArray.writeUint64,
    ByteArray.writeFloat, ByteArray.writeDouble, ByteArray.writeStringWithoutLength,
    ByteArray.readFixInt8, ByteArray.readFixInt16, ByteArray.readFixUint16,
    ByteArray.readFixInt32, ByteArray.readFixUint32, ByteArray.readFixInt64,
    ByteArray.readFixUint64, ByteArray.readInt32, ByteArray.readUint32, ByteArray.readInt64,
    ByteArray.readUint64, ByteArray.readFloat, ByteArray.readDouble]
  all_goals
    first
    | with_reducible exact hP.write _
    | with_reducible exact hP.writeFix _ _
    | with_reducible exact drop_keeps (Prog.Keeps.gets _)
    | with_reducible exact drop_keeps hP.readFixUint8
    | with_reducible exact drop_keeps (hP.readFix _)
    | with_reducible exact drop_keeps (hP.readVarLoop _ _)
    | with_reducible
        exact drop_keeps (Prog.Keeps.bind (hP.readVarLoop _ _) fun _ => Prog.Keeps.pure _)

end Closed

/-- No member assigns `m_baseSize`. -/
theorem baseSize_closed (k : Nat) : Closed fun b => b.baseSize = k where
  write := by
    intro d b h b' hr
    unfold ByteArray.write at hr
    dsimp only at hr
    split at hr
    · cases hr
      exact h
    · -- only `addCapacity` touches more than the positions and the memory
      repeat' split at hr
      all_goals cases hr <;> exact (addCapacity_baseSize b _).trans h
  read := by
    intro size b h b' hr
    unfold ByteArray.read at hr
    repeat' split at hr
    all_goals cases hr <;> exact h
  setPosition := by
    intro pos b h b' hr
    unfold ByteArray.setPosition at hr
    repeat' split at hr
    all_goals cases hr <;> exact h
  clear := by
    intro b h b' hr
    cases hr
    exact h
  setLittleEndian := fun _ => Prog.Keeps.modify fun _ h => h
  getWriteBuffers := by
    intro len b h b' hr
    unfold ByteArray.getWriteBuffers at hr
    dsimp only at hr
    split at hr
    · cases hr
      exact h
    · repeat' split at hr
      all_goals cases hr <;> exact (addCapacity_baseSize b _).trans h

theorem run_baseSize {base : Nat} {heap : Nat → UInt8} {ops : List Op} {b : ByteArray}
    (h : runFrom step (new base heap) ops = some b) : b.baseSize = base :=
  runFrom_invariant (P := fun b => b.baseSize = base)
    (fun s op s' hs hstep => (baseSize_closed base).exec op s hs s' hstep) rfl h

/-- The invariant holds after every sequence of public calls that runs into no fault. -/
theorem run_inv {base : Nat} (hb : 0 < base) {heap : Nat → UInt8} {ops : List Op} {b : ByteArray}
    (h : runFrom step (new base heap) ops = some b) : Inv b :=
  runFrom_invariant (fun s op s' hs hstep => inv_closed.exec op s hs s' hstep) (new_inv hb heap) h

/-- **The cursors agree in every reachable state.**  After any sequence of public calls, those that
threw included, all blocks have `m_baseSize` bytes, the capacity is what they add up to, the
position is within the size and the size within the capacity, and `m_cur` is the block the position
lies in, null exactly at the end of the capacity. -/
theorem cursors_agree (base : Nat) (hb : 1 ≤ base) (heap : Nat → UInt8) (ops : List Op)
    (b : ByteArray) (h : runFrom step (new base heap) ops = some b) :
    (∀ n ∈ b.nodes, n.size = b.baseSize) ∧ b.capacity = b.nodes.length * b.baseSize ∧
      b.position ≤ b.size ∧ b.size ≤ b.capacity ∧
      (∀ i, b.cur = some i → i = b.position / b.baseSize ∧ i < b.nodes.length) ∧
      (b.cur = none ↔ b.position = b.capacity) := by
  have hinv := run_inv hb h
  have hpc := hinv.position_le_capacity
  refine ⟨fun n hn => (hinv.uniform n hn).1, hinv.capacity_eq, hinv.position_le, hinv.size_le,
    ?_, ?_⟩
  · intro i hi
    rw [hinv.cur_eq, nodeAt] at hi
    split at hi
    · rename_i hlt
      cases hi
      exact ⟨rfl, hlt⟩
    · cases hi
  · constructor
    · intro hnone
      by_contra hne
      rw [hinv.cur_some (by omega)] at hnone
      cases hnone
    · exact hinv.cur_none

/-- Three bytes in blocks of two, then a seek to the end of the second block. -/
theorem cursors_agree_at_capacity :
    ∃ b, runFrom step (new 2 fun _ => 0) [.write [1, 2, 3], .setPosition 4] = some b ∧
      b.position = 4 ∧ b.capacity = 4 ∧ (b.cur = none ↔ b.position = b.capacity) :=
  ⟨_, rfl, rfl, rfl,
    (cursors_agree 2 (by decide) (fun _ => 0) [.write [1, 2, 3], .setPosition 4] _ rfl).2.2.2.2.2⟩

end Luwu.ByteArray
