import Luwu.ByteArray.Basic

/-!
# Chains of equal blocks

The block-splitting loops run on a chain whose blocks all have the same size, and there each of
them is a one-liner on the concatenated memory `flat` of the chain.
-/

namespace Luwu.ByteArray

open Lib

/-- All blocks of the chain have `base` bytes of memory. -/
def Uniform (base : Nat) (c : List Node) : Prop :=
  ∀ n ∈ c, n.size = base ∧ n.ptr.length = base

/-- The memory of the chain, block after block. -/
def flat (c : List Node) : List UInt8 := c.flatMap (·.ptr)

@[simp] theorem flat_nil : flat [] = [] := rfl
@[simp] theorem flat_cons (n : Node) (c : List Node) : flat (n :: c) = n.ptr ++ flat c := rfl

theorem flat_append (c₁ c₂ : List Node) : flat (c₁ ++ c₂) = flat c₁ ++ flat c₂ :=
  List.flatMap_append

namespace Uniform

variable {base : Nat} {c c₁ c₂ : List Node} {n : Node}

theorem head (h : Uniform base (n :: c)) : n.size = base ∧ n.ptr.length = base :=
  h n List.mem_cons_self

theorem tail (h : Uniform base (n :: c)) : Uniform base c :=
  fun m hm => h m (List.mem_cons_of_mem _ hm)

theorem cons (hn : n.size = base ∧ n.ptr.length = base) (h : Uniform base c) :
    Uniform base (n :: c) := by
  intro m hm
  rcases List.mem_cons.mp hm with rfl | hm
  · exact hn
  · exact h m hm

theorem append (h₁ : Uniform base c₁) (h₂ : Uniform base c₂) : Uniform base (c₁ ++ c₂) := by
  intro m hm
  rcases List.mem_append.mp hm with hm | hm
  · exact h₁ m hm
  · exact h₂ m hm

theorem take (h : Uniform base c) (i : Nat) : Uniform base (c.take i) :=
  fun m hm => h m (List.mem_of_mem_take hm)

theorem drop (h : Uniform base c) (i : Nat) : Uniform base (c.drop i) :=
  fun m hm => h m (List.mem_of_mem_drop hm)

theorem length_flat (h : Uniform base c) : (flat c).length = c.length * base := by
  induction c with
  | nil => simp
  | cons n c ih =>
    rw [flat_cons, List.length_append, ih h.tail, h.head.2, List.length_cons, Nat.succ_mul,
      Nat.add_comm]

/-- The memory from block `i` on is what follows the first `i` blocks. -/
theorem flat_drop (h : Uniform base c) (i : Nat) : flat (c.drop i) = (flat c).drop (i * base) := by
  induction c generalizing i with
  | nil => simp
  | cons n c ih =>
    cases i with
    | zero => simp
    | succ i =>
      have hlen := h.head.2
      rw [List.drop_succ_cons, ih h.tail, flat_cons, Nat.succ_mul, List.drop_append,
        List.drop_of_length_le (by omega : n.ptr.length ≤ i * base + base), List.nil_append, hlen,
        Nat.add_sub_cancel]

theorem store {d : List UInt8} {npos : Nat} (hn : n.size = base ∧ n.ptr.length = base)
    (hd : npos + d.length ≤ base) :
    (n.store npos d).size = base ∧ (n.store npos d).ptr.length = base := by
  refine ⟨hn.1, ?_⟩
  rw [Node.store, length_splice (by rw [hn.2]; exact hd), hn.2]

end Uniform

/-! ## The loops -/

variable {base : Nat} {c : List Node}

/-- The number of `next` steps after `npos + size` bytes, when the first block is left. -/
theorem div_step {npos size : Nat} (hnpos : npos < base) (hsize : base - npos < size) :
    (0 + (size - (base - npos))) / base + 1 = (npos + size) / base := by
  have hb : 0 < base := by omega
  rw [show npos + size = 0 + (size - (base - npos)) + base by omega, Nat.add_div_right _ hb]

theorem last_step {npos size : Nat} (hnpos : npos < base) (hsize : size ≤ base - npos)
    : (if base = npos + size then 1 else 0) = (npos + size) / base := by
  split
  · rename_i h
    rw [← h, Nat.div_self (by omega)]
  · rename_i h
    rw [Nat.div_eq_of_lt (by omega)]

theorem readLoop_eq (h : Uniform base c) {npos size : Nat} (hnpos : npos < base)
    (hfit : npos + size ≤ c.length * base) :
    readLoop c npos size = some (((flat c).drop npos).take size, (npos + size) / base) := by
  induction c generalizing npos size with
  | nil =>
    have hz : size = 0 := by simp at hfit; omega
    have hp : npos = 0 := by simp at hfit; omega
    subst hz hp
    simp [readLoop]
  | cons n c ih =>
    obtain ⟨hsz, hlen⟩ := h.head
    cases size with
    | zero => simp [readLoop, Nat.div_eq_of_lt hnpos]
    | succ m =>
      have hdrop : (n.ptr.drop npos).length = base - npos := by rw [List.length_drop, hlen]
      rw [flat_cons, List.drop_append_of_le_length (by omega)]
      simp only [readLoop, hsz]
      by_cases hle : m + 1 ≤ base - npos
      · -- the node has all the bytes that are left to read
        rw [if_pos hle, last_step hnpos hle, List.take_append_of_le_length (by omega)]
        rfl
      · -- the rest of this node, and then the others from their start
        rw [if_neg hle, ih h.tail (by omega) (by
          rw [List.length_cons, Nat.succ_mul] at hfit
          omega)]
        simp only [Option.some.injEq, Prod.mk.injEq]
        refine ⟨?_, div_step hnpos (by omega)⟩
        rw [List.take_append, hdrop, List.drop_zero, Node.load,
          List.take_of_length_le (by omega : (n.ptr.drop npos).length ≤ base - npos),
          List.take_of_length_le (by omega : (n.ptr.drop npos).length ≤ m + 1)]

/-- The loop follows a null `next` exactly when the chain holds too few bytes. -/
theorem readLoop_eq_none (h : Uniform base c) {npos size : Nat} (hnpos : npos < base) :
    readLoop c npos size = none ↔ c.length * base < npos + size ∧ 0 < size := by
  induction c generalizing npos size with
  | nil =>
    cases size with
    | zero => simp [readLoop]
    | succ m =>
      simp only [readLoop, true_iff, List.length_nil, Nat.zero_mul]
      omega
  | cons n c ih =>
    obtain ⟨hsz, -⟩ := h.head
    cases size with
    | zero => simp [readLoop]
    | succ m =>
      have hmul : (n :: c).length * base = c.length * base + base := by
        rw [List.length_cons, Nat.succ_mul]
      rw [hmul]
      simp only [readLoop, hsz]
      by_cases hle : m + 1 ≤ base - npos
      · rw [if_pos hle]
        simp only [reduceCtorEq, false_iff]
        omega
      · -- this node is read to its end, and the question is put to the others
        rw [if_neg hle]
        have hrec : readLoop c 0 (m + 1 - (base - npos)) = none ↔
            c.length * base < 0 + (m + 1 - (base - npos)) ∧ 0 < m + 1 - (base - npos) :=
          ih h.tail (by omega)
        cases hr : readLoop c 0 (m + 1 - (base - npos)) with
        | none =>
          have := hrec.mp hr
          simp only [true_iff]
          omega
        | some p =>
          have : ¬ (c.length * base < 0 + (m + 1 - (base - npos)) ∧
              0 < m + 1 - (base - npos)) := fun hc => by rw [hrec.mpr hc] at hr; cases hr
          simp only [reduceCtorEq, false_iff]
          omega

theorem writeLoop_eq (h : Uniform base c) {npos : Nat} {d : List UInt8} (hd : d ≠ [])
    (hnpos : npos < base) (hfit : npos + d.length ≤ c.length * base) :
    ∃ c', writeLoop c npos d = some (c', (npos + d.length) / base) ∧ Uniform base c' ∧
      c'.length = c.length ∧ flat c' = splice (flat c) npos d := by
  induction c generalizing npos d with
  | nil =>
    have hpos : 0 < d.length := List.length_pos_iff.mpr hd
    rw [List.length_nil, Nat.zero_mul] at hfit
    omega
  | cons n c ih =>
    obtain ⟨hsz, hlen⟩ := h.head
    obtain ⟨x, xs, rfl⟩ := List.exists_cons_of_ne_nil hd
    simp only [writeLoop, hsz]
    generalize hdef : x :: xs = d at *
    by_cases hle : d.length ≤ base - npos
    · -- the bytes fit into this node
      refine ⟨n.store npos d :: c, ?_, Uniform.cons (Uniform.store h.head (by omega)) h.tail,
        rfl, ?_⟩
      · rw [if_pos hle, last_step hnpos hle]
      · rw [flat_cons, flat_cons, splice_append_left (by omega)]
        rfl
    · -- they fill it up, and the others take the rest from their start
      have hdl : (d.drop (base - npos)).length = d.length - (base - npos) := List.length_drop
      have htl : (d.take (base - npos)).length = base - npos := by rw [List.length_take]; omega
      have hne : d.drop (base - npos) ≠ [] := by
        rw [← List.length_pos_iff]
        omega
      have hfit' : 0 + (d.drop (base - npos)).length ≤ c.length * base := by
        rw [List.length_cons, Nat.succ_mul] at hfit
        omega
      obtain ⟨c', hrun, huni, hlen', hflat⟩ := ih h.tail hne (by omega) hfit'
      refine ⟨n.store npos (d.take (base - npos)) :: c', ?_,
        Uniform.cons (Uniform.store h.head (by omega)) huni, by simp [hlen'], ?_⟩
      · rw [if_neg hle, hrun]
        simp only [Option.some.injEq, Prod.mk.injEq, true_and]
        rw [hdl]
        exact div_step hnpos (by omega)
      · rw [flat_cons, flat_cons, hflat, splice_append_split (n := base - npos) (by omega)
          (by omega)]
        rfl

/-- Filling the `iovec` vector visits the blocks that reading the same bytes visits. -/
theorem bufferLoop_eq_none_iff (c : List Node) (i npos len : Nat) :
    bufferLoop c i npos len = none ↔ readLoop c npos len = none := by
  induction c generalizing i npos len with
  | nil => cases len <;> simp [bufferLoop, readLoop]
  | cons n c ih =>
    cases len with
    | zero => simp [bufferLoop, readLoop]
    | succ m =>
      simp only [bufferLoop, readLoop]
      by_cases hle : m + 1 ≤ n.size - npos
      · simp [hle]
      · have hrec := ih (i + 1) 0 (m + 1 - (n.size - npos))
        rw [if_neg hle, if_neg hle]
        cases hb : bufferLoop c (i + 1) 0 (m + 1 - (n.size - npos)) with
        | none => simp [hrec.mp hb]
        | some iovs =>
          cases hr : readLoop c 0 (m + 1 - (n.size - npos)) with
          | none => simp [hrec.mpr hr] at hb
          | some p => simp

theorem seekLoop_eq (h : Uniform base c) (hb : 0 < base) (hc : c ≠ []) {pos : Nat}
    (hfit : pos ≤ c.length * base) : seekLoop c pos = some (pos / base) := by
  induction c generalizing pos with
  | nil => exact absurd rfl hc
  | cons n c ih =>
    obtain ⟨hsz, -⟩ := h.head
    rw [List.length_cons, Nat.succ_mul] at hfit
    rw [seekLoop, hsz]
    by_cases hlt : base < pos
    · have hne : c ≠ [] := by
        rintro rfl
        simp at hfit
        omega
      rw [if_pos hlt, ih h.tail hne (by omega)]
      simp only [Option.map_some, Option.some.injEq]
      conv_rhs => rw [show pos = pos - base + base by omega, Nat.add_div_right _ hb]
    · rw [if_neg hlt]
      by_cases heq : pos = base
      · rw [if_pos heq, heq, Nat.div_self hb]
      · rw [if_neg heq, Nat.div_eq_of_lt (by omega)]

end Luwu.ByteArray
