import Mathlib.Algebra.GroupWithZero.Nat
import Luwu.Stream.Socket

/-!
# Reading and writing in place

The vectors that `getReadBuffers` and `getWriteBuffers` fill address the bytes that `toString`
copies out and `write` copies in.  The overload of `getReadBuffers` that takes a position clamps
the length by the bytes behind `m_position`.
-/

namespace Luwu.SocketStream

open Lib Luwu.ByteArray

/-- The bytes that the buffers address, one buffer after the other. -/
def gather (nodes : List Node) (ios : List Iovec) : Bytes :=
  ios.flatMap fun v => ((nodes[v.block]?).map fun n => n.load v.off v.len).getD []

/-! ## The loop and its buffers -/

section

variable {base : Nat} {nodes : List Node} {ios : List Iovec}

theorem bufferLoop_nonempty {c : List Node} (h : Uniform base c) {i npos len : Nat}
    (hnpos : npos < base) (hrun : bufferLoop c i npos len = some ios) : ∀ v ∈ ios, 0 < v.len := by
  induction c generalizing i npos len ios with
  | nil =>
    cases len with
    | zero =>
      cases hrun
      exact fun v hv => absurd hv List.not_mem_nil
    | succ m => cases hrun
  | cons n c ih =>
    obtain ⟨hsz, -⟩ := h.head
    cases len with
    | zero =>
      cases hrun
      exact fun v hv => absurd hv List.not_mem_nil
    | succ m =>
      simp only [bufferLoop, hsz] at hrun
      split at hrun
      · cases hrun
        intro v hv
        rw [List.mem_singleton.mp hv]
        exact Nat.succ_pos m
      · -- the rest of this block is not empty, and the others are taken from their start
        cases hrest : bufferLoop c (i + 1) 0 (m + 1 - (base - npos)) with
        | none =>
          rw [hrest] at hrun
          cases hrun
        | some more =>
          rw [hrest] at hrun
          cases hrun
          intro v hv
          rcases List.mem_cons.mp hv with rfl | hv
          · show 0 < base - npos
            omega
          · exact ih h.tail (by omega) hrest v hv

theorem sum_len (base : Nat) (ios : List Iovec) :
    (ios.map (·.len)).sum = (ios.flatMap (cells base)).length := by
  induction ios with
  | nil => rfl
  | cons v ios ih =>
    rw [List.map_cons, List.sum_cons, List.flatMap_cons, List.length_append, ih, cells,
      List.length_range']

theorem take_drop_eq_map (l : Bytes) {start count : Nat} (h : start + count ≤ l.length) :
    (l.drop start).take count = (List.range' start count).map fun i => l.getD i 0 := by
  apply List.ext_getElem
  · simp only [List.length_take, List.length_drop, List.length_map, List.length_range']
    omega
  · intro i hi hi'
    rw [List.length_map, List.length_range'] at hi'
    rw [List.getElem_take, List.getElem_drop, List.getElem_map, List.getElem_range', Nat.one_mul]
    exact List.getElem_eq_getD 0

theorem load_cells (h : Uniform base nodes) {v : Iovec} (hv : Inside base nodes.length v) :
    ((nodes[v.block]?).map fun n => n.load v.off v.len).getD [] =
      (cells base v).map fun i => (flat nodes).getD i 0 := by
  have hblock := hv.1
  have hoff := hv.2
  have hlen := h.length_flat
  have hptr := (h _ (List.getElem_mem hblock)).2
  have hmul : (v.block + 1) * base ≤ nodes.length * base := Nat.mul_le_mul_right _ hblock
  rw [Nat.succ_mul] at hmul
  rw [List.getElem?_eq_getElem hblock, Option.map_some, Option.getD_some, cells,
    ← take_drop_eq_map _ (by omega), ← List.drop_drop, ← h.flat_drop,
    ← List.cons_getElem_drop_succ (h := hblock), flat_cons,
    List.drop_append_of_le_length (by omega),
    List.take_append_of_le_length (by rw [List.length_drop]; omega)]
  rfl

/-- Buffers that cover a stretch of the memory hold its bytes. -/
theorem gather_cells (h : Uniform base nodes) (hin : ∀ v ∈ ios, Inside base nodes.length v) :
    gather nodes ios = (ios.flatMap (cells base)).map fun i => (flat nodes).getD i 0 := by
  induction ios with
  | nil => rfl
  | cons v ios ih =>
    rw [List.flatMap_cons, List.map_append, ← load_cells h (hin v List.mem_cons_self),
      ← ih fun w hw => hin w (List.mem_cons_of_mem v hw)]
    rfl

theorem Covers.gather {start count : Nat} (h : Uniform base nodes)
    (hcov : Covers base nodes.length ios start count)
    (hfit : start + count ≤ nodes.length * base) :
    gather nodes ios = ((flat nodes).drop start).take count := by
  rw [gather_cells h hcov.inside, hcov.cells_eq,
    take_drop_eq_map _ (by rw [h.length_flat]; exact hfit)]

/-! ## Storing into the buffers -/

theorem flat_modify (h : Uniform base nodes) {i off : Nat} {d : Bytes} (hi : i < nodes.length)
    (hd : off + d.length ≤ base) :
    flat (nodes.modify i fun n => n.store off d) = splice (flat nodes) (i * base + off) d := by
  induction nodes generalizing i with
  | nil => cases hi
  | cons n c ih =>
    obtain ⟨-, hlen⟩ := h.head
    cases i with
    | zero =>
      rw [List.modify_zero_cons, flat_cons, flat_cons, Nat.zero_mul, Nat.zero_add,
        splice_append_left (by omega)]
      rfl
    | succ i =>
      rw [List.modify_succ_cons, flat_cons, flat_cons, ih h.tail (Nat.lt_of_succ_lt_succ hi),
        splice_append_right (by rw [Nat.succ_mul]; omega), hlen, Nat.succ_mul]
      congr 2
      omega

/-- Storing bytes into buffers that cover the cells from `start` on overwrites these cells. -/
theorem flat_scatter {start count : Nat} {d : Bytes} (h : Uniform base nodes)
    (hin : ∀ v ∈ ios, Inside base nodes.length v)
    (hcells : ios.flatMap (cells base) = List.range' start count) (hd : d.length ≤ count)
    (hroom : start + count ≤ nodes.length * base) :
    flat (scatter ios d nodes) = splice (flat nodes) start d := by
  induction ios generalizing start count d nodes with
  | nil =>
    have hcount : count = 0 := by
      have := congrArg List.length hcells
      rw [List.flatMap_nil, List.length_nil, List.length_range'] at this
      exact this.symm
    have hnil : d = [] := List.length_eq_zero_iff.mp (by omega)
    rw [hnil, splice_nil]
    rfl
  | cons v ios ih =>
    obtain ⟨hblock, hoff⟩ := hin v List.mem_cons_self
    -- the cells of this buffer come first, and those of the others follow
    rw [List.flatMap_cons] at hcells
    have hle : v.len ≤ count := by
      have := congrArg List.length hcells
      rw [List.length_append, cells, List.length_range', List.length_range'] at this
      omega
    have hsplit : List.range' start count =
        List.range' start v.len ++ List.range' (start + v.len) (count - v.len) := by
      rw [List.range'_append_1, Nat.add_sub_cancel' hle]
    rw [hsplit] at hcells
    obtain ⟨hhere, hrest⟩ := List.append_inj hcells (by
      rw [cells, List.length_range', List.length_range'])
    have hfit : v.off + (d.take v.len).length ≤ base := by
      rw [List.length_take]
      omega
    have hflat : flat (nodes.modify v.block fun n => n.store v.off (d.take v.len)) =
        splice (flat nodes) start (d.take v.len) := by
      rw [flat_modify h hblock hfit]
      by_cases hz : v.len = 0
      · rw [hz, List.take_zero, splice_nil, splice_nil]
      · -- a buffer with cells begins at the first of them
        have hstart : v.block * base + v.off = start := by
          have hhead := congrArg List.head? hhere
          obtain ⟨m, hm⟩ := Nat.exists_eq_succ_of_ne_zero hz
          rw [cells, hm, List.range'_succ, List.range'_succ] at hhead
          exact Option.some.inj hhead
        rw [hstart]
    rw [scatter, ih (modify_uniform h v.block hfit) (by
        rw [List.length_modify]
        exact fun w hw => hin w (List.mem_cons_of_mem v hw)) hrest (by
        rw [List.length_drop]
        omega) (by
        rw [List.length_modify]
        omega), hflat]
    by_cases hshort : d.length ≤ v.len
    · rw [List.drop_of_length_le hshort, splice_nil, List.take_of_length_le hshort]
    · -- the two overwrites are one behind the other
      have htl : (d.take v.len).length = v.len := by
        rw [List.length_take]
        omega
      have hstart : start ≤ (flat nodes).length := by
        rw [h.length_flat]
        omega
      have hboth := splice_splice (d := d.take v.len) (e := d.drop v.len) hstart
      rw [htl, List.take_append_drop] at hboth
      exact hboth

end

/-! ## The buffers of the array -/

variable {b : ByteArray} {len p : Nat}

theorem buffersAt_nonempty (h : Inv b) {n : Nat} {ios : List Iovec}
    (hios : buffersAt b p n = some ios) : ∀ v ∈ ios, 0 < v.len :=
  bufferLoop_nonempty (h.uniform.drop _) (h.mod_lt p) hios

theorem getWriteBuffers_nonempty (h : Inv b) (hn : 0 < len) {ios : List Iovec} {b' : ByteArray}
    (hrun : getWriteBuffers len b = .ok ios b') : ∀ v ∈ ios, 0 < v.len := by
  obtain ⟨hg, hroom, -, hpos, -⟩ := addCapacity_spec h len
  unfold getWriteBuffers at hrun
  dsimp only at hrun
  rw [if_neg (by omega)] at hrun
  generalize b.addCapacity len = g at *
  rw [hg.cur_some (by omega)] at hrun
  dsimp only at hrun
  split at hrun
  · cases hrun
  · rename_i hloop
    cases hrun
    exact buffersAt_nonempty hg hloop

/-- `getReadBuffers` addresses the first bytes that `toString` copies, as many as it returns. -/
def ReadsInPlace (b : ByteArray) (len : Nat) : Prop :=
  ∃ ios str, getReadBuffers len b = .ok ios b ∧ toString b = .ok str b ∧
    buffersSize b len = min len b.getReadSize ∧ (∀ v ∈ ios, 0 < v.len) ∧
    gather b.nodes ios = str.take (min len b.getReadSize)

/-- `getWriteBuffers` addresses the cells from the position on, `len` of them, and storing bytes
there and seeking past them has the effect of writing them. -/
def WritesInPlace (b : ByteArray) (len : Nat) : Prop :=
  ∃ ios g, getWriteBuffers len b = .ok ios g ∧ (∀ v ∈ ios, 0 < v.len) ∧
    (ios.map (·.len)).sum = len ∧ (∀ v ∈ ios, Inside g.baseSize g.nodes.length v) ∧
    ios.flatMap (cells g.baseSize) = List.range' b.position len ∧
    ∀ d : Bytes, d.length ≤ len → ∃ b₁ b₂,
      setPosition (b.position + d.length) { g with nodes := scatter ios d g.nodes } = .ok () b₁ ∧
      ByteArray.write d b = .ok () b₂ ∧
      b₁.position = b₂.position ∧ b₁.size = b₂.size ∧ b₁.abs.bytes = b₂.abs.bytes

theorem readsInPlace (h : Inv b) (len : Nat) : ReadsInPlace b len := by
  have hsl := h.size_le
  have hread : b.getReadSize = b.size - b.position := rfl
  have hsize := buffersSize_eq b len
  have hstr := toString_abs h
  by_cases hz : min len b.getReadSize = 0
  · refine ⟨[], _, getReadBuffers_zero (hsize.trans hz), hstr, hsize,
      fun v hv => absurd hv List.not_mem_nil, ?_⟩
    rw [hz, List.take_zero]
    rfl
  · obtain ⟨ios, hios, hcov⟩ := buffersAt_covers h (p := b.position) (Nat.pos_of_ne_zero hz)
      (by omega)
    rw [← hsize] at hios
    refine ⟨ios, _, getReadBuffers_some h (by omega) hios, hstr, hsize, buffersAt_nonempty h hios,
      ?_⟩
    rw [hcov.gather h.uniform (by rw [← h.capacity_eq]; omega), abs_drop, List.take_take]
    congr 1
    omega

theorem writesInPlace (h : Inv b) (hlen : 1 ≤ len) : WritesInPlace b len := by
  obtain ⟨hg, hroom, hbase, hpos, hsize, -, more, hnodes⟩ := addCapacity_spec h len
  obtain ⟨ios, hrun, hcov⟩ := getWriteBuffers_covers h hlen
  refine ⟨ios, _, hrun, getWriteBuffers_nonempty h hlen hrun, ?_, ?_, ?_, ?_⟩
  · rw [sum_len b.baseSize, hcov.cells_eq, List.length_range']
  · rw [hbase]
    exact hcov.inside
  · rw [hbase]
    exact hcov.cells_eq
  · intro d hd
    have hin : ∀ v ∈ ios,
        Inside (b.addCapacity len).baseSize (b.addCapacity len).nodes.length v := by
      rw [hbase]
      exact hcov.inside
    -- `s` is the array with the bytes stored in the buffers
    have hs := scatter_inv hg d fun v hv => (hin v hv).2
    have hflat : flat (scatter ios d (b.addCapacity len).nodes) =
        splice (flat b.nodes ++ flat more) b.position d := by
      rw [flat_scatter hg.uniform hin (by rw [hbase]; exact hcov.cells_eq) hd
        (by rw [← hg.capacity_eq]; exact hroom), hnodes, flat_append]
    obtain ⟨b₂, hwrite, h₂, habs⟩ := write_abs h d
    have hsize₂ : b₂.size = max b.size (b.position + d.length) := by
      rw [← abs_length h₂, habs]
      show (splice b.abs.bytes b.position d).length = _
      rw [← splice_abs h (flat more) d, ← hflat, List.length_take,
        show (flat (scatter ios d (b.addCapacity len).nodes)).length = _ from hs.length_flat]
      show min _ (b.addCapacity len).capacity = _
      have hsl := hg.size_le
      omega
    refine ⟨_, b₂, by rw [setPosition_eq hs, if_neg (by dsimp only; omega)], hwrite, ?_, ?_, ?_⟩
    · exact (congrArg Flat.pos habs).symm
    · rw [hsize₂]
      show max (b.addCapacity len).size _ = _
      rw [hsize]
    · rw [habs]
      show (flat (scatter ios d (b.addCapacity len).nodes)).take
        (max (b.addCapacity len).size (b.position + d.length)) = splice b.abs.bytes b.position d
      rw [hflat, hsize, splice_abs h]

/-- **Reading and writing in place.**  In every state that calls on the array and transfers lead to,
the buffers of `getReadBuffers` hold the first bytes of `toString`, and filling those of
`getWriteBuffers`, wholly or in part, is writing. -/
theorem in_place (base : Nat) (hb : 1 ≤ base) (heap : Nat → UInt8) (acts : List Act)
    (b : ByteArray) (hrun : runFrom step (new base heap) acts = some b) (len : Nat) :
    ReadsInPlace b len ∧ (1 ≤ len → WritesInPlace b len) := by
  have h := run_inv hb hrun
  exact ⟨readsInPlace h len, writesInPlace h⟩

/-- Three bytes over the last of two, in blocks of two. -/
theorem in_place_two :
    ∃ b, runFrom step (new 2 fun _ => 0) [.array (.write [1, 2]), .array (.setPosition 1)] =
      some b ∧
      ReadsInPlace b 3 ∧ WritesInPlace b 3 :=
  ⟨_, rfl,
    (in_place 2 (by decide) (fun _ => 0) [.array (.write [1, 2]), .array (.setPosition 1)] _ rfl
      3).1,
    (in_place 2 (by decide) (fun _ => 0) [.array (.write [1, 2]), .array (.setPosition 1)] _ rfl
      3).2 (by decide)⟩

/-! ## The overload with a position -/

/-- `getReadBuffers (buffers, len, p)` returns and addresses the bytes from `p` on, up to `len` of
them, in the buffers that a seek to `p` and `getReadBuffers (buffers, len)` yield. -/
def OffersAt (b : ByteArray) (len p : Nat) : Prop :=
  ∃ ios s, getReadBuffersAt len p b = .ok ios b ∧
    buffersSize b len = min len (b.getSize - p) ∧
    gather b.nodes ios = (b.abs.bytes.drop p).take (min len (b.getSize - p)) ∧
    setPosition p b = .ok () s ∧ getReadBuffers len s = .ok ios s

theorem offersAt_iff (h : Inv b) (hp : p ≤ b.getSize) :
    OffersAt b len p ↔ p = b.position ∨ len ≤ b.getReadSize ∧ len ≤ b.getSize - p := by
  have hpl := h.position_le
  have hsl := h.size_le
  have hread : b.getReadSize = b.size - b.position := rfl
  have hgsize : b.getSize = b.size := rfl
  have hmin : min len b.getReadSize = min len (b.getSize - p) ↔
      p = b.position ∨ len ≤ b.getReadSize ∧ len ≤ b.getSize - p := by omega
  rw [← hmin]
  constructor
  · intro hc
    obtain ⟨ios, s, -, hsize, -⟩ := hc
    rw [← buffersSize_eq]
    exact hsize
  · intro hsame
    have hsize := (buffersSize_eq b len).trans hsame
    -- `s` is the array behind the seek
    generalize hs : ({ b with
      position := p, size := max b.size p, cur := nodeAt b.nodes (p / b.baseSize) } : ByteArray) = s
    have hseek : setPosition p b = .ok () s := by rw [setPosition_eq h, if_neg (by omega), hs]
    have hinv : Inv s := setPosition_keeps p b h s (by rw [hseek]; rfl)
    have hpos : s.position = p := by rw [← hs]
    have hclamp : buffersSize s len = min len (b.getSize - p) := by
      rw [buffersSize_eq, ← hs]
      show min len (max b.size p - p) = _
      omega
    by_cases hz : min len (b.getSize - p) = 0
    · refine ⟨[], s, if_pos (hsize.trans hz), hsize, ?_, hseek,
        getReadBuffers_zero (hclamp.trans hz)⟩
      rw [hz, List.take_zero]
      rfl
    · obtain ⟨ios, hios, hcov⟩ := buffersAt_covers h (p := p) (Nat.pos_of_ne_zero hz) (by omega)
      refine ⟨ios, s, ?_, hsize, ?_, hseek, ?_⟩
      · -- the walk from the root comes to the block of `p`
        refine (if_neg (fun hno => hz (hsize.symm.trans hno))).trans ?_
        rw [← hsize] at hios
        unfold buffersAt buffersSize at hios
        rw [hios]
      · rw [hcov.gather h.uniform (by rw [← h.capacity_eq]; omega)]
        show _ = (((flat b.nodes).take b.size).drop p).take _
        rw [List.drop_take, List.take_take]
        congr 1
        omega
      · apply getReadBuffers_some hinv
        · omega
        · rw [hpos, hclamp, ← hs]
          exact hios

/-- **Buffers from a position on.**  In every reachable state, for every `p` within the size, the
overload with a position yields what a seek to `p` and the other overload yield exactly when `p` is
the position of the array, or `len` bytes lie behind both. -/
theorem offers_at_iff (base : Nat) (hb : 1 ≤ base) (heap : Nat → UInt8) (acts : List Act)
    (b : ByteArray) (hrun : runFrom step (new base heap) acts = some b) (len p : Nat)
    (hp : p ≤ b.getSize) :
    OffersAt b len p ↔ p = b.position ∨ len ≤ b.getReadSize ∧ len ≤ b.getSize - p :=
  offersAt_iff (run_inv hb hrun) hp

/-- The last two bytes of four, while the position is at the second. -/
theorem offers_at_last :
    ∃ b, runFrom step (new 2 fun _ => 0)
        [.array (.write [1, 2, 3, 4]), .array (.setPosition 1)] = some b ∧ OffersAt b 2 2 :=
  ⟨_, rfl, (offers_at_iff 2 (by decide) (fun _ => 0)
    [.array (.write [1, 2, 3, 4]), .array (.setPosition 1)] _ rfl 2 2 (by decide)).mpr
      (.inr ⟨by decide, by decide⟩)⟩

/-- From the last byte of four on, with the position at the first: three cells behind the data are
handed out. -/
theorem offers_past_the_end :
    ¬ ∀ (base : Nat), 1 ≤ base → ∀ (heap : Nat → UInt8) (acts : List Act) (b : ByteArray),
      runFrom step (new base heap) acts = some b → ∀ len p : Nat, p ≤ b.getSize →
        OffersAt b len p := by
  intro h
  obtain ⟨ios, s, -, hsize, -⟩ := h 8 (by decide) (fun _ => 0)
    [.array (.write [1, 2, 3, 4]), .array (.setPosition 0)] _ rfl 4 3 (by decide)
  exact absurd hsize (by decide)

end Luwu.SocketStream
