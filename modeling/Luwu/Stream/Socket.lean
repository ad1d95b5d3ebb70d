import Mathlib.Data.List.Range
import Luwu.ByteArray.Flat
import Luwu.Stream.Fixed

/-!
# Socket streams and byte arrays

`SocketStream::read (ba, length)` and `write (ba, length)` let the kernel fill or send the blocks of
a byte array in place, and then move the position by what the call has returned.  The kernel gets a
`msghdr`: an array of buffers and their number.

Two things go wrong.  `rt > 0` is a test of unsigned numbers, so that a call that fails moves the
position too; and `write` passes the number of bytes where the number of buffers belongs.
-/

namespace Luwu.SocketStream

open Lib Luwu.ByteArray

/-- A `msghdr`: the vector that `msg_iov` points into, and `msg_iovlen`. -/
structure Msg where
  iov : List Iovec
  iovlen : Nat
deriving DecidableEq, Repr

/-- The buffers the kernel is offered; `none` when it is to look for some behind the vector. -/
def Msg.offered (m : Msg) : Option (List Iovec) :=
  if m.iovlen ≤ m.iov.length then some (m.iov.take m.iovlen) else none

/-- What `read (ba, length)` passes to `Socket::recv`. -/
def recvMsg (length : Nat) : M Msg := do
  let ios ← getWriteBuffers length
  pure { iov := ios, iovlen := ios.length }

/-- What `write (ba, length)` passes to `Socket::send`. -/
def sendMsg (length : Nat) : M Msg := do
  let ios ← getReadBuffers length
  pure { iov := ios, iovlen := length }

/-- The kernel puts bytes into the buffers, one after the other. -/
def scatter : List Iovec → Bytes → List Node → List Node
  | [], _, nodes => nodes
  | v :: ios, d, nodes =>
    scatter ios (d.drop v.len) (nodes.modify v.block fun n => n.store v.off (d.take v.len))

/-- `if (rt > 0) ba->setPosition (ba->getPosition () + rt); return rt`. -/
def advanceBy (rt : Nat) : M Nat := do
  let position ← Prog.gets getPosition
  if 0 < rt then
    setPosition ((position + rt) % 2 ^ 64)
  pure rt

/-- The `ssize_t` that a call on the socket returns, `-1` without a connection. -/
def result (connected : Bool) (answer : Option Nat) : Int :=
  match connected, answer with
  | true, some n => n
  | true, none => -1
  | false, _ => -1

/-- `read (ba, length)`; `recvmsg` fails (`none`), or delivers as much of `some d` as the buffers
hold. -/
def read (connected : Bool) (length : Nat) (arrival : Option Bytes) : M Nat := do
  if connected then
    let msg ← recvMsg length
    Prog.modify fun b => { b with nodes := scatter msg.iov ((arrival.getD []).take length) b.nodes }
    advanceBy (toSize (result true (arrival.map fun d => (d.take length).length)))
  else
    pure (toSize (-1))

/-- `write (ba, length)`; `sendmsg` fails (`none`), or says how many bytes it has sent. -/
def write (connected : Bool) (length : Nat) (answer : Option Nat) : M Nat := do
  if connected then
    let _ ← sendMsg length
    advanceBy (toSize (result true answer))
  else
    pure (toSize (-1))

/-- A call on a byte array, by its owner or by a stream. -/
inductive Act where
  | array (op : Op)
  | read (connected : Bool) (length : Nat) (arrival : Option Bytes)
  | write (connected : Bool) (length : Nat) (answer : Option Nat)

def step (b : ByteArray) : Act → Option ByteArray
  | .array op => ByteArray.step b op
  | .read connected length arrival => (SocketStream.read connected length arrival b).state?
  | .write connected length answer => (SocketStream.write connected length answer b).state?

/-! ## The buffers -/

/-- The cells of the array that a buffer covers. -/
def cells (base : Nat) (v : Iovec) : List Nat := List.range' (v.block * base + v.off) v.len

/-- The buffer lies in one of the blocks. -/
def Inside (base blocks : Nat) (v : Iovec) : Prop := v.block < blocks ∧ v.off + v.len ≤ base

/-- The buffers cover the bytes one after the other, in as many pieces as there are blocks. -/
structure Covers (base blocks : Nat) (ios : List Iovec) (start count : Nat) : Prop where
  inside : ∀ v ∈ ios, Inside base blocks v
  cells_eq : ios.flatMap (cells base) = List.range' start count
  pieces : ios.length = (start % base + (count - 1)) / base + 1

theorem pieces_step {base npos len : Nat} (hnpos : npos < base) (hlen : base - npos < len) :
    (0 + (len - (base - npos) - 1)) / base + 1 = (npos + (len - 1)) / base := by
  have hb : 0 < base := by omega
  rw [show npos + (len - 1) = 0 + (len - (base - npos) - 1) + base by omega,
    Nat.add_div_right _ hb]

theorem bufferLoop_covers {base : Nat} {c : List Node} (h : Uniform base c) {i npos len : Nat}
    (hnpos : npos < base) (hpos : 0 < len) (hfit : npos + len ≤ c.length * base) :
    ∃ ios, bufferLoop c i npos len = some ios ∧
      Covers base (i + c.length) ios (i * base + npos) len := by
  have hmod : (i * base + npos) % base = npos := by
    rw [Nat.add_comm, Nat.add_mul_mod_self_right, Nat.mod_eq_of_lt hnpos]
  induction c generalizing i npos len with
  | nil =>
    rw [List.length_nil, Nat.zero_mul] at hfit
    omega
  | cons n c ih =>
    obtain ⟨hsz, -⟩ := h.head
    obtain ⟨m, rfl⟩ := Nat.exists_eq_succ_of_ne_zero (Nat.pos_iff_ne_zero.mp hpos)
    simp only [bufferLoop, hsz]
    by_cases hle : m.succ ≤ base - npos
    · -- the block covers what is left
      rw [if_pos hle]
      refine ⟨_, rfl, ?_, ?_, ?_⟩
      · intro v hv
        rw [List.mem_singleton.mp hv]
        refine ⟨?_, ?_⟩
        · show i < i + (n :: c).length
          rw [List.length_cons]
          omega
        · show npos + m.succ ≤ base
          omega
      · rw [List.flatMap_singleton]
        rfl
      · rw [hmod, Nat.div_eq_of_lt (by omega)]
        rfl
    · -- the rest of this block, and then the others from their start
      rw [if_neg hle]
      have hnext : (i + 1) * base + 0 = i * base + npos + (base - npos) := by
        rw [Nat.add_mul]
        omega
      have hmod' : ((i + 1) * base + 0) % base = 0 := by rw [Nat.add_zero, Nat.mul_mod_left]
      have hfit' : 0 + (m.succ - (base - npos)) ≤ c.length * base := by
        rw [List.length_cons, Nat.succ_mul] at hfit
        omega
      obtain ⟨ios, hrun, hcov⟩ := ih h.tail (by omega) (by omega) hfit' hmod'
      rw [hrun]
      refine ⟨_, rfl, ?_, ?_, ?_⟩
      · intro v hv
        rcases List.mem_cons.mp hv with rfl | hv
        · refine ⟨?_, ?_⟩
          · show i < i + (n :: c).length
            rw [List.length_cons]
            omega
          · show npos + (base - npos) ≤ base
            omega
        · have hin := hcov.inside v hv
          rw [List.length_cons]
          exact ⟨by have := hin.1; omega, hin.2⟩
      · rw [List.flatMap_cons, hcov.cells_eq, hnext]
        show List.range' (i * base + npos) (base - npos) ++ _ = _
        rw [List.range'_append_1]
        congr 1
        omega
      · have hpieces := hcov.pieces
        rw [hmod'] at hpieces
        rw [List.length_cons, hpieces, pieces_step hnpos (by omega), hmod]

variable {b : ByteArray} {length : Nat}

/-- The buffers for the `n` bytes from `p` on. -/
def buffersAt (b : ByteArray) (p n : Nat) : Option (List Iovec) :=
  bufferLoop (b.nodes.drop (p / b.baseSize)) (p / b.baseSize) (p % b.baseSize) n

theorem buffersAt_covers (h : Inv b) {p n : Nat} (hn : 0 < n) (hfit : p + n ≤ b.capacity) :
    ∃ ios, buffersAt b p n = some ios ∧ Covers b.baseSize b.nodes.length ios p n := by
  have hsplit : p / b.baseSize * b.baseSize + p % b.baseSize = p := by
    rw [Nat.mul_comm]
    exact Nat.div_add_mod _ _
  have hblock : p / b.baseSize < b.nodes.length := by
    rw [Nat.div_lt_iff_lt_mul h.base_pos, ← h.capacity_eq]
    omega
  have hrest : (b.nodes.drop (p / b.baseSize)).length * b.baseSize =
      b.capacity - p / b.baseSize * b.baseSize := by
    rw [List.length_drop, Nat.sub_mul, h.capacity_eq]
  obtain ⟨ios, hloop, hcov⟩ := bufferLoop_covers (h.uniform.drop (p / b.baseSize))
    (i := p / b.baseSize) (h.mod_lt p) hn (by omega)
  rw [List.length_drop, Nat.add_sub_cancel' (Nat.le_of_lt hblock), hsplit] at hcov
  exact ⟨ios, hloop, hcov⟩

/-- What both overloads of `getReadBuffers` return: `len`, clamped by `getReadSize ()`. -/
def buffersSize (b : ByteArray) (len : Nat) : Nat :=
  if b.getReadSize < len then b.getReadSize else len

theorem buffersSize_eq (b : ByteArray) (len : Nat) : buffersSize b len = min len b.getReadSize := by
  unfold buffersSize
  split <;> omega

theorem getReadBuffers_zero (hz : buffersSize b length = 0) : getReadBuffers length b = .ok [] b :=
  if_pos hz

theorem getReadBuffers_some (h : Inv b) (hn : 0 < buffersSize b length) {ios : List Iovec}
    (hios : buffersAt b b.position (buffersSize b length) = some ios) :
    getReadBuffers length b = .ok ios b := by
  have hsl := h.size_le
  have hread : b.getReadSize = b.size - b.position := rfl
  have hsize := buffersSize_eq b length
  have hcur := h.cur_some (by omega : b.position < b.capacity)
  refine (if_neg (by unfold buffersSize at hn; omega)).trans ?_
  rw [hcur]
  unfold buffersAt buffersSize at hios
  dsimp only
  rw [hios]

theorem getReadBuffers_covers (h : Inv b) (hn : 0 < min length b.getReadSize) :
    ∃ ios, getReadBuffers length b = .ok ios b ∧
      Covers b.baseSize b.nodes.length ios b.position (min length b.getReadSize) := by
  have hsl := h.size_le
  have hread : b.getReadSize = b.size - b.position := rfl
  rw [← buffersSize_eq] at hn ⊢
  have hsize := buffersSize_eq b length
  obtain ⟨ios, hios, hcov⟩ := buffersAt_covers h hn (p := b.position) (by omega)
  exact ⟨ios, getReadBuffers_some h hn hios, hcov⟩

theorem getWriteBuffers_covers (h : Inv b) (hn : 0 < length) :
    ∃ ios, getWriteBuffers length b = .ok ios (b.addCapacity length) ∧
      Covers b.baseSize (b.addCapacity length).nodes.length ios b.position length := by
  obtain ⟨hg, hroom, hbase, hpos, -⟩ := addCapacity_spec h length
  unfold getWriteBuffers
  dsimp only
  rw [if_neg (by omega)]
  generalize b.addCapacity length = g at *
  obtain ⟨ios, hios, hcov⟩ := buffersAt_covers hg hn (p := g.position) (by omega)
  rw [hbase, hpos] at hcov
  refine ⟨ios, ?_, hcov⟩
  rw [hg.cur_some (by omega)]
  unfold buffersAt at hios
  dsimp only
  rw [hios]

/-! ## What the kernel is offered -/

/-- The message is the vector `ios` and its length, and what the kernel is offered are the cells of
the array from the position on, `count` of them, and nothing outside the blocks. -/
structure Offers (b : ByteArray) (m : Msg) (ios : List Iovec) (count : Nat) : Prop where
  iov_eq : m.iov = ios
  iovlen_eq : m.iovlen = ios.length
  offered : ∃ os, m.offered = some os ∧ (∀ v ∈ os, Inside b.baseSize b.nodes.length v) ∧
    os.flatMap (cells b.baseSize) = List.range' b.position count

/-- `write (ba, length)` offers the readable bytes, up to `length` of them. -/
def SendsExactly (b : ByteArray) (length : Nat) : Prop :=
  ∃ m ios b', sendMsg length b = .ok m b' ∧ getReadBuffers length b = .ok ios b' ∧
    Offers b' m ios (min length b.getReadSize)

/-- `read (ba, length)` offers room for `length` bytes. -/
def ReceivesExactly (b : ByteArray) (length : Nat) : Prop :=
  ∃ m ios b', recvMsg length b = .ok m b' ∧ getWriteBuffers length b = .ok ios b' ∧
    Offers b' m ios length

theorem offered_all (ios : List Iovec) : Msg.offered ⟨ios, ios.length⟩ = some ios := by
  unfold Msg.offered
  rw [if_pos (Nat.le_refl _), List.take_length]

theorem recvMsg_exact (h : Inv b) (hn : 0 < length) : ReceivesExactly b length := by
  obtain ⟨-, -, hbase, hpos, -⟩ := addCapacity_spec h length
  obtain ⟨ios, hrun, hcov⟩ := getWriteBuffers_covers h hn
  have hmsg : recvMsg length b = .ok ⟨ios, ios.length⟩ (b.addCapacity length) := by
    unfold recvMsg
    rw [Prog.bind_apply, hrun]
    rfl
  refine ⟨_, ios, _, hmsg, hrun, rfl, rfl, ios, offered_all ios, ?_, ?_⟩
  · rw [hbase]
    exact hcov.inside
  · rw [hbase, hpos]
    exact hcov.cells_eq

/-- The number of bytes is the number of buffers only by coincidence. -/
theorem sendMsg_exact_iff (h : Inv b) (hn : 0 < min length b.getReadSize) :
    SendsExactly b length ↔
      (b.position % b.baseSize + (min length b.getReadSize - 1)) / b.baseSize + 1 = length := by
  obtain ⟨ios, hrun, hcov⟩ := getReadBuffers_covers h hn
  have hmsg : sendMsg length b = .ok ⟨ios, length⟩ b := by
    unfold sendMsg
    rw [Prog.bind_apply, hrun]
    rfl
  rw [← hcov.pieces]
  constructor
  · intro hexact
    obtain ⟨m, ios', b', hm, hios, hoff⟩ := hexact
    rw [hmsg] at hm
    rw [hrun] at hios
    cases hm
    cases hios
    exact hoff.iovlen_eq.symm
  · intro hlen
    refine ⟨_, ios, b, hmsg, hrun, rfl, hlen.symm, ios, ?_, hcov.inside, hcov.cells_eq⟩
    rw [← hlen]
    exact offered_all ios

/-! ## The array behind a transfer -/

theorem capacity_le_addCapacity (h : Inv b) (length : Nat) :
    b.capacity ≤ (b.addCapacity length).capacity := by
  obtain ⟨hg, -, hbase, -, -, -, more, hnodes⟩ := addCapacity_spec h length
  rw [h.capacity_eq, hg.capacity_eq, hbase, hnodes, List.length_append]
  exact Nat.mul_le_mul_right _ (Nat.le_add_right _ _)

@[simp] theorem store_nil (n : Node) (npos : Nat) : n.store npos [] = n := by
  unfold Node.store
  rw [splice_nil]

theorem scatter_nil (ios : List Iovec) (nodes : List Node) : scatter ios [] nodes = nodes := by
  induction ios generalizing nodes with
  | nil => rfl
  | cons v ios ih =>
    have hid : (fun n : Node => n.store v.off ([].take v.len)) = id := by
      funext n
      rw [List.take_nil]
      exact store_nil n v.off
    rw [scatter, hid, List.modify_id, List.drop_nil, ih]

theorem modify_uniform {base : Nat} {nodes : List Node} (h : Uniform base nodes) (i : Nat)
    {off : Nat} {d : Bytes} (hfit : off + d.length ≤ base) :
    Uniform base (nodes.modify i fun n => n.store off d) := by
  intro n hn
  obtain ⟨j, hj, hget⟩ := List.mem_iff_getElem.mp hn
  rw [List.getElem_modify] at hget
  split at hget
  · rw [← hget]
    exact Uniform.store (h _ (List.getElem_mem _)) hfit
  · rw [← hget]
    exact h _ (List.getElem_mem _)

/-- Filling buffers that lie in the blocks leaves the chain as it is, but for the bytes. -/
theorem scatter_uniform {base : Nat} {ios : List Iovec} {nodes : List Node} (d : Bytes)
    (h : Uniform base nodes) (hin : ∀ v ∈ ios, v.off + v.len ≤ base) :
    Uniform base (scatter ios d nodes) ∧ (scatter ios d nodes).length = nodes.length := by
  induction ios generalizing d nodes with
  | nil => exact ⟨h, rfl⟩
  | cons v ios ih =>
    have hfit : v.off + (d.take v.len).length ≤ base := by
      have hv := hin v List.mem_cons_self
      rw [List.length_take]
      omega
    obtain ⟨huni, hlen⟩ := ih (d.drop v.len) (modify_uniform h v.block hfit)
      fun w hw => hin w (List.mem_cons_of_mem v hw)
    rw [scatter]
    exact ⟨huni, by rw [hlen, List.length_modify]⟩

theorem scatter_inv (h : Inv b) {ios : List Iovec} (d : Bytes)
    (hin : ∀ v ∈ ios, v.off + v.len ≤ b.baseSize) :
    Inv { b with nodes := scatter ios d b.nodes } := by
  obtain ⟨huni, hlen⟩ := scatter_uniform d h.uniform hin
  refine ⟨h.base_pos, huni, ?_, ?_, h.position_le, h.size_le, ?_⟩
  · rw [hlen]
    exact h.nodes_pos
  · rw [hlen]
    exact h.capacity_eq
  · show b.cur = nodeAt (scatter ios d b.nodes) _
    rw [h.cur_eq, nodeAt, nodeAt, hlen]

/-- What `read (ba, length)` has done when it comes to look at the result. -/
theorem recvMsg_run (h : Inv b) (length : Nat) :
    ∃ ios g, recvMsg length b = .ok ⟨ios, ios.length⟩ g ∧ Inv g ∧
      (∀ v ∈ ios, v.off + v.len ≤ g.baseSize) ∧ g.position = b.position ∧ g.size = b.size ∧
      g.abs.bytes = b.abs.bytes ∧ b.position + length ≤ g.capacity ∧
      g.capacity ≤ (b.addCapacity length).capacity := by
  have hpc := h.position_le_capacity
  by_cases hz : length = 0
  · refine ⟨[], b, by rw [hz]; rfl, h, fun v hv => absurd hv List.not_mem_nil, rfl, rfl, rfl,
      by omega, ?_⟩
    unfold addCapacity
    rw [hz, if_pos (Nat.zero_le _)]
  · obtain ⟨hg, hroom, hbase, hpos, hsize, -, more, hnodes⟩ := addCapacity_spec h length
    obtain ⟨ios, hrun, hcov⟩ := getWriteBuffers_covers h (Nat.pos_of_ne_zero hz)
    refine ⟨ios, b.addCapacity length, ?_, hg, ?_, hpos, hsize, ?_, hroom,
      Nat.le_refl _⟩
    · unfold recvMsg
      rw [Prog.bind_apply, hrun]
      rfl
    · intro v hv
      rw [hbase]
      exact (hcov.inside v hv).2
    · -- the new blocks lie behind the content
      show (flat (b.addCapacity length).nodes).take (b.addCapacity length).size = _
      rw [hnodes, hsize, flat_append, List.take_append_of_le_length]
      · rfl
      · rw [h.length_flat]
        exact h.size_le

theorem sendMsg_run (h : Inv b) (length : Nat) : ∃ m, sendMsg length b = .ok m b := by
  unfold sendMsg
  rw [Prog.bind_apply]
  by_cases hn : 0 < min length b.getReadSize
  · obtain ⟨ios, hrun, -⟩ := getReadBuffers_covers h hn
    rw [hrun]
    exact ⟨_, rfl⟩
  · rw [getReadBuffers_zero (by rw [buffersSize_eq]; omega)]
    exact ⟨_, rfl⟩

theorem advanceBy_pos (h : Inv b) {rt : Nat} (hrt : 0 < rt) :
    advanceBy rt b =
      if b.capacity < (b.position + rt) % 2 ^ 64 then
        .thrown (.outOfRange "set_position out of range") b
      else .ok rt
        { b with position := (b.position + rt) % 2 ^ 64
                 size := max b.size ((b.position + rt) % 2 ^ 64)
                 cur := nodeAt b.nodes ((b.position + rt) % 2 ^ 64 / b.baseSize) } := by
  have hrun : advanceBy rt b =
      (setPosition ((b.position + rt) % 2 ^ 64) b).bind fun _ s => .ok rt s := by
    unfold advanceBy
    simp only [hrt, if_true]
    rfl
  rw [hrun, setPosition_eq h]
  split <;> rfl

theorem advanceBy_keeps (rt : Nat) : Prog.Keeps Inv (advanceBy rt) := by
  refine Prog.Keeps.bind (Prog.Keeps.gets _) fun position => ?_
  by_cases hrt : 0 < rt
  · simp only [hrt, if_true]
    exact Prog.Keeps.bind (setPosition_keeps _) fun _ => Prog.Keeps.pure _
  · simp only [hrt, if_false]
    exact Prog.Keeps.pure _

theorem read_run (h : Inv b) (length : Nat) (arrival : Option Bytes) :
    ∃ g, read true length arrival b =
        advanceBy (toSize (result true (arrival.map fun d => (d.take length).length))) g ∧
      Inv g ∧ g.position = b.position ∧ g.size = b.size ∧
      ((arrival.getD []).take length = [] → g.abs.bytes = b.abs.bytes) ∧
      b.position + length ≤ g.capacity ∧ g.capacity ≤ (b.addCapacity length).capacity := by
  obtain ⟨ios, g, hmsg, hg, hin, hpos, hsize, hbytes, hroom, hcap⟩ := recvMsg_run h length
  refine ⟨{ g with nodes := scatter ios ((arrival.getD []).take length) g.nodes }, ?_,
    scatter_inv hg _ hin, hpos, hsize, ?_, hroom, hcap⟩
  · unfold read
    rw [if_pos rfl, Prog.bind_apply, hmsg]
    rfl
  · intro hnil
    rw [hnil, scatter_nil]
    exact hbytes

theorem write_run (h : Inv b) (length : Nat) (answer : Option Nat) :
    write true length answer b = advanceBy (toSize (result true answer)) b := by
  obtain ⟨m, hmsg⟩ := sendMsg_run h length
  unfold write
  rw [if_pos rfl, Prog.bind_apply, hmsg]
  rfl

/-! ## Runs -/

theorem read_keeps (connected : Bool) (length : Nat) (arrival : Option Bytes) :
    Prog.Keeps Inv (read connected length arrival) := by
  intro b h b' hb'
  cases connected with
  | false =>
    cases hb'
    exact h
  | true =>
    obtain ⟨g, hrun, hg, -⟩ := read_run h length arrival
    rw [hrun] at hb'
    exact advanceBy_keeps _ g hg b' hb'

theorem write_keeps (connected : Bool) (length : Nat) (answer : Option Nat) :
    Prog.Keeps Inv (write connected length answer) := by
  intro b h b' hb'
  cases connected with
  | false =>
    cases hb'
    exact h
  | true =>
    rw [write_run h] at hb'
    exact advanceBy_keeps _ b h b' hb'

theorem step_keeps {b b' : ByteArray} {act : Act} (h : Inv b) (hstep : step b act = some b') :
    Inv b' := by
  cases act with
  | array op => exact inv_closed.exec op b h b' hstep
  | read connected length arrival => exact read_keeps connected length arrival b h b' hstep
  | write connected length answer => exact write_keeps connected length answer b h b' hstep

theorem run_inv {base : Nat} (hb : 1 ≤ base) {heap : Nat → UInt8} {acts : List Act}
    (h : runFrom step (new base heap) acts = some b) : Inv b :=
  runFrom_invariant (fun _ _ _ hs hstep => step_keeps hs hstep) (new_inv hb heap) h

/-- **Buffers for the kernel.**  In every state that calls on the array and transfers lead to, with
readable bytes, `read (ba, length)` offers the kernel exactly its buffers; `write (ba, length)` does
so exactly when the bytes to send lie in `length` blocks. -/
theorem offers_iff (base : Nat) (hb : 1 ≤ base) (heap : Nat → UInt8) (acts : List Act)
    (b : ByteArray) (hrun : runFrom step (new base heap) acts = some b) (length : Nat)
    (hlength : 1 ≤ length) (hread : 1 ≤ b.getReadSize) :
    (SendsExactly b length ∧ ReceivesExactly b length) ↔
      (b.position % b.baseSize + (min length b.getReadSize - 1)) / b.baseSize + 1 = length := by
  have h := run_inv hb hrun
  rw [← sendMsg_exact_iff h (by omega)]
  exact and_iff_left (recvMsg_exact h hlength)

/-- One readable byte is one buffer. -/
theorem offers_one :
    ∃ b, runFrom step (new 8 fun _ => 0) [.array (.write [1, 2]), .array (.setPosition 0)] =
      some b ∧
      SendsExactly b 1 ∧ ReceivesExactly b 1 :=
  ⟨_, rfl, (offers_iff 8 (by decide) (fun _ => 0)
    [.array (.write [1, 2]), .array (.setPosition 0)] _ rfl 1 (by decide) (by decide)).mpr
      (by decide)⟩

/-- Two bytes in one block: the kernel is to send two buffers. -/
theorem offers_two :
    ¬ ∀ (base : Nat), 1 ≤ base → ∀ (heap : Nat → UInt8) (acts : List Act) (b : ByteArray),
      runFrom step (new base heap) acts = some b → ∀ length : Nat, 1 ≤ length →
        1 ≤ b.getReadSize → SendsExactly b length ∧ ReceivesExactly b length := by
  intro h
  obtain ⟨m, ios, b', hm, hios, hoff⟩ := (h 8 (by decide) (fun _ => 0)
    [.array (.write [1, 2]), .array (.setPosition 0)] _ rfl 2 (by decide) (by decide)).1
  cases hm
  cases hios
  exact absurd hoff.iovlen_eq (by decide)

/-! ## Results -/

/-- A transfer returns what the socket has returned; when that is nothing or a failure, the array is
as before, and otherwise the position has moved by the number of bytes. -/
def Meets (b : ByteArray) (rt : Int) (out : Outcome Fault Exn ByteArray Nat) : Prop :=
  ∃ b', out = .ok (toSize rt) b' ∧
    (rt ≤ 0 → b'.position = b.position ∧ b'.size = b.size ∧ b'.abs.bytes = b.abs.bytes) ∧
    (0 < rt → (b'.position : Int) = b.position + rt)

theorem meets_unconnected (b : ByteArray) : Meets b (-1) (.ok (toSize (-1)) b) :=
  ⟨b, rfl, fun _ => ⟨rfl, rfl, rfl⟩, fun h => absurd h (by decide)⟩

/-- A call that fails moves the position one back, or throws at position 0. -/
theorem not_meets_failed {g : ByteArray} (hg : Inv g) (hpos : g.position = b.position) :
    ¬ Meets b (-1) (advanceBy (toSize (-1)) g) := by
  intro h
  obtain ⟨b', hout, hzero, -⟩ := h
  rw [toSize_neg_one, advanceBy_pos hg (by decide)] at hout
  split at hout
  · cases hout
  · cases hout
    have hsame : (g.position + (2 ^ 64 - 1)) % 2 ^ 64 = b.position := (hzero (by decide)).1
    omega

theorem meets_zero {g : ByteArray} (hpos : g.position = b.position) (hsize : g.size = b.size)
    (hbytes : g.abs.bytes = b.abs.bytes) : Meets b (0 : Nat) (advanceBy (toSize (0 : Nat)) g) :=
  ⟨g, rfl, fun _ => ⟨hpos, hsize, hbytes⟩, fun h => absurd h (by decide)⟩

/-- A call that moves bytes is right when they lie within the capacity, and only then. -/
theorem meets_pos_iff {g : ByteArray} (hg : Inv g) (hpos : g.position = b.position)
    (hfit : g.capacity < 2 ^ 64) {n : Nat} (hn : 0 < n) (hrange : n < 2 ^ 63) :
    Meets b (n : Nat) (advanceBy (toSize (n : Nat)) g) ↔ b.position + n ≤ g.capacity := by
  have hle := hg.position_le_capacity
  rw [toSize_natCast (by omega), advanceBy_pos hg hn, hpos]
  constructor
  · intro h
    obtain ⟨b', hout, -, hmoved⟩ := h
    rw [toSize_natCast (by omega)] at hout
    split at hout
    · cases hout
    · cases hout
      have hadd : (((b.position + n) % 2 ^ 64 : Nat) : Int) = b.position + (n : Nat) :=
        hmoved (by omega)
      omega
  · intro hroom
    have hmod : (b.position + n) % 2 ^ 64 = b.position + n := Nat.mod_eq_of_lt (by omega)
    rw [hmod, if_neg (by omega)]
    refine ⟨_, by rw [toSize_natCast (by omega)], fun h => absurd h (by omega), fun _ => ?_⟩
    show ((b.position + n : Nat) : Int) = _
    omega

theorem read_meets_iff (h : Inv b) (hfit : (b.addCapacity length).capacity < 2 ^ 64)
    (connected : Bool) (arrival : Option Bytes)
    (hrange : ∀ d, arrival = some d → (d.take length).length < 2 ^ 63) :
    Meets b (result connected (arrival.map fun d => (d.take length).length))
        (read connected length arrival b) ↔
      ¬ (connected = true ∧ arrival = none) := by
  cases connected with
  | false => exact iff_of_true (meets_unconnected b) fun hc => by cases hc.1
  | true =>
    obtain ⟨g, hrun, hg, hpos, hsize, hbytes, hroom, hcap⟩ := read_run h length arrival
    rw [hrun]
    cases arrival with
    | none =>
      exact iff_of_false (not_meets_failed hg hpos) fun hc => hc ⟨rfl, rfl⟩
    | some d =>
      refine iff_of_true ?_ fun hc => by cases hc.2
      have hle : (d.take length).length ≤ length := List.length_take_le length d
      have hlt := hrange d rfl
      show Meets b ((d.take length).length : Nat)
        (advanceBy (toSize ((d.take length).length : Nat)) g)
      by_cases hz : (d.take length).length = 0
      · rw [hz]
        exact meets_zero hpos hsize (hbytes (List.length_eq_zero_iff.mp hz))
      · exact (meets_pos_iff hg hpos (by omega) (by omega) (by omega)).mpr (by omega)

theorem write_meets_iff (h : Inv b) (hfit : b.capacity < 2 ^ 64) (connected : Bool)
    (answer : Option Nat) (hrange : ∀ n, answer = some n → n < 2 ^ 63) :
    Meets b (result connected answer) (write connected length answer b) ↔
      ¬ (connected = true ∧ answer = none) ∧
        ∀ n, connected = true → answer = some n → b.position + n ≤ b.capacity := by
  have hpc := h.position_le_capacity
  cases connected with
  | false =>
    exact iff_of_true (meets_unconnected b) ⟨fun hc => by (cases hc.1), fun n hc => by cases hc⟩
  | true =>
    rw [write_run h]
    cases answer with
    -- the socket reports an error
    | none =>
      exact iff_of_false (not_meets_failed h rfl) fun hc => hc.1 ⟨rfl, rfl⟩
    | some n =>
      -- the socket has taken `n` bytes
      have hcond : (¬ (true = true ∧ some n = none) ∧
          ∀ m, true = true → some n = some m → b.position + m ≤ b.capacity) ↔
            b.position + n ≤ b.capacity := by
        constructor
        · intro hc
          exact hc.2 n rfl rfl
        · intro hc
          refine ⟨fun hno => by (cases hno.2), ?_⟩
          intro m _ hm
          cases hm
          exact hc
      rw [hcond]
      by_cases hz : n = 0
      · rw [hz]
        exact iff_of_true (meets_zero rfl rfl rfl) hpc
      · exact meets_pos_iff h rfl hfit (by omega) (hrange n rfl)

/-- **Results of transfers.**  In every state that calls on the array and transfers lead to, `read`
returns what the socket returned and moves the position by the bytes received, exactly when the call
on the socket does not fail; `write` does so when, besides, the socket reports no more bytes than
the capacity has behind the position. -/
theorem transfers_meet_iff (base : Nat) (hb : 1 ≤ base) (heap : Nat → UInt8) (acts : List Act)
    (b : ByteArray) (hrun : runFrom step (new base heap) acts = some b) (connected : Bool)
    (length : Nat) (hfit : (b.addCapacity length).capacity < 2 ^ 64) (arrival : Option Bytes)
    (harrival : ∀ d, arrival = some d → (d.take length).length < 2 ^ 63)
    (answer : Option Nat) (hanswer : ∀ n, answer = some n → n < 2 ^ 63) :
    (Meets b (result connected (arrival.map fun d => (d.take length).length))
        (read connected length arrival b) ↔ ¬ (connected = true ∧ arrival = none)) ∧
    (Meets b (result connected answer) (write connected length answer b) ↔
      ¬ (connected = true ∧ answer = none) ∧
        ∀ n, connected = true → answer = some n → b.position + n ≤ b.capacity) := by
  have h := run_inv hb hrun
  exact ⟨read_meets_iff h hfit connected arrival harrival,
    write_meets_iff h (Nat.lt_of_le_of_lt (capacity_le_addCapacity h length) hfit) connected answer
      hanswer⟩

/-- Two bytes received over the first of four. -/
theorem transfers_meet_two :
    ∃ b, runFrom step (new 8 fun _ => 0)
        [.array (.write [1, 2, 3, 4]), .array (.setPosition 0)] = some b ∧
      Meets b 2 (read true 4 (some [9, 9]) b) ∧ Meets b 2 (write true 4 (some 2) b) :=
  ⟨_, rfl,
    (transfers_meet_iff 8 (by decide) (fun _ => 0)
      [.array (.write [1, 2, 3, 4]), .array (.setPosition 0)] _ rfl true 4 (by decide)
      (some [9, 9]) (fun d hd => by cases hd; decide) (some 2)
      (fun n hn => by cases hn; decide)).1.mpr
        (fun hc => by cases hc.2),
    (transfers_meet_iff 8 (by decide) (fun _ => 0)
      [.array (.write [1, 2, 3, 4]), .array (.setPosition 0)] _ rfl true 4 (by decide)
      (some [9, 9]) (fun d hd => by cases hd; decide) (some 2)
      (fun n hn => by cases hn; decide)).2.mpr
        ⟨fun hc => by (cases hc.2), fun n _ hn => by cases hn; decide⟩⟩

/-- A connection that is reset when three of four bytes are behind the position: the call moves the
position back onto the third. -/
theorem transfers_move_back :
    ¬ ∀ (base : Nat), 1 ≤ base → ∀ (heap : Nat → UInt8) (acts : List Act) (b : ByteArray),
      runFrom step (new base heap) acts = some b → ∀ length : Nat,
        (b.addCapacity length).capacity < 2 ^ 64 →
          Meets b (result true none) (read true length none b) ∧
            Meets b (result true none) (write true length none b) := by
  intro h
  obtain ⟨b', hout, hzero, -⟩ := (h 8 (by decide) (fun _ => 0)
    [.array (.write [1, 2, 3, 4]), .array (.setPosition 3)] _ rfl 1 (by decide)).2
  cases hout
  exact absurd (hzero (by decide)).1 (by decide)

end Luwu.SocketStream
