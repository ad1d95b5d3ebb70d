import Luwu.ByteArray.NullSafety
import Luwu.ByteArray.RoundTrip

/-!
# Strings with a length in front

The four readers of strings size their result by the decoded length before `read` compares that
length with the bytes that are left.  The programs here are the readers with the sizes of the result
beside the array.
-/

namespace Luwu.ByteArray

open Lib

/-! ## The size of the result -/

/-- An array, and the sizes that the result has been given so far. -/
abbrev Sized := ByteArray × List Nat

def onArray {α : Type} (m : M α) : Prog Fault Exn Sized α := fun s =>
  match m s.1 with
  | .ok a b => .ok a (b, s.2)
  | .thrown e b => .thrown e (b, s.2)
  | .fault x => .fault x

/-- `buf.resize (len)`. -/
def resizeBuf (len : Nat) : Prog Fault Exn Sized Unit := fun s =>
  if maxStringSize < len then .thrown (.lengthError "basic_string::_M_replace_aux") s
  else .ok () (s.1, s.2 ++ [len])

/-- `readStringFix16`, `readStringFix32`, `readStringFix64` and `readStringVint`. -/
def readStringSized (f : StringFormat) : Prog Fault Exn Sized (List UInt8) := do
  let len ← onArray (readLength f)
  resizeBuf len
  onArray (read len)

section

variable {α : Type} {m : M α} {b b' : ByteArray} (sizes : List Nat)

theorem onArray_ok {a : α} (h : m b = .ok a b') :
    onArray m (b, sizes) = .ok a (b', sizes) := by
  unfold onArray
  dsimp only
  rw [h]

theorem onArray_thrown {e : Exn} (h : m b = .thrown e b') :
    onArray m (b, sizes) = .thrown e (b', sizes) := by
  unfold onArray
  dsimp only
  rw [h]

theorem onArray_fault {x : Fault} (h : m b = .fault x) : onArray m (b, sizes) = .fault x := by
  unfold onArray
  dsimp only
  rw [h]

theorem resizeBuf_long {len : Nat} (h : maxStringSize < len) (s : Sized) :
    resizeBuf len s = .thrown (.lengthError "basic_string::_M_replace_aux") s := if_pos h

theorem resizeBuf_ok {len : Nat} (h : ¬ maxStringSize < len) (s : Sized) :
    resizeBuf len s = .ok () (s.1, s.2 ++ [len]) := if_neg h

end

/-- What a call has done to the array alone. -/
def forgetSizes {α : Type} : Outcome Fault Exn Sized α → Outcome Fault Exn ByteArray α
  | .ok a s => .ok a s.1
  | .thrown e s => .thrown e s.1
  | .fault x => .fault x

/-- Without the sizes these are the readers. -/
theorem readStringSized_forget (f : StringFormat) (b : ByteArray) (sizes : List Nat) :
    forgetSizes (readStringSized f (b, sizes)) = readString f b := by
  rw [readString_eq, readStringSized, Prog.bind_apply]
  cases hlen : readLength f b with
  | thrown e b₁ =>
    rw [onArray_thrown sizes hlen]
    rfl
  | fault x =>
    rw [onArray_fault sizes hlen]
    rfl
  | ok len b₁ =>
    rw [onArray_ok sizes hlen, Outcome.bind_ok, Outcome.bind_ok, Prog.bind_apply]
    by_cases hmax : maxStringSize < len
    · rw [resizeBuf_long hmax, readStringBody, if_pos hmax]
      rfl
    · rw [resizeBuf_ok hmax, readStringBody, if_neg hmax, Outcome.bind_ok]
      cases hread : read len b₁ with
      | ok d b₂ =>
        rw [onArray_ok _ hread]
        rfl
      | thrown e b₂ =>
        rw [onArray_thrown _ hread]
        rfl
      | fault x =>
        rw [onArray_fault _ hread]
        rfl

/-! ## The length in front -/

/-- The length that the unread bytes begin with, and the number of its bytes; `none` when it is
incomplete. -/
def lengthPrefix (f : StringFormat) (endian : Endian) (d : List UInt8) : Option (Nat × Nat) :=
  match f with
  | .fix16 => if 2 ≤ d.length then some ((fixValue endian 2 (d.take 2)).toNat, 2) else none
  | .fix32 => if 4 ≤ d.length then some ((fixValue endian 4 (d.take 4)).toNat, 4) else none
  | .fix64 => if 8 ≤ d.length then some ((fixValue endian 8 (d.take 8)).toNat, 8) else none
  | .vint =>
    (decodeVar [0, 7, 14, 21, 28, 35, 42, 49, 56, 63] (0 : BitVec 64) d).map fun p =>
      (p.1.toNat, p.2)

/-- A read of a length does what `lengthPrefix` says. -/
def Reads (b : ByteArray) (m : M Nat) : Option (Nat × Nat) → Prop
  | some (len, k) => m b = .ok len (b.advance k) ∧ k ≤ b.unread.length
  | none => ∃ b', m b = .thrown (.outOfRange "not enough length") b'

theorem readFix_reads {b : ByteArray} (h : Inv b) {n : Nat} (hn : 0 < n) :
    Reads b (do let len ← readFix n; pure len.toNat)
      (if n ≤ b.unread.length then some ((fixValue b.endian n (b.unread.take n)).toNat, n)
        else none) := by
  by_cases hle : n ≤ b.unread.length
  · rw [if_pos hle]
    refine ⟨?_, hle⟩
    rw [Prog.bind_apply, readFix_ok h hn hle]
    rfl
  · rw [if_neg hle]
    refine ⟨b, ?_⟩
    rw [Prog.bind_apply, readFix_short h (by omega)]
    rfl

theorem readLength_reads {b : ByteArray} (h : Inv b) (f : StringFormat) :
    Reads b (readLength f) (lengthPrefix f b.endian b.unread) := by
  cases f with
  | fix16 => exact readFix_reads h (by decide : 0 < 2)
  | fix32 => exact readFix_reads h (by decide : 0 < 4)
  | fix64 => exact readFix_reads h (by decide : 0 < 8)
  | vint =>
    obtain ⟨hok, hno⟩ := readVarLoop_eq h [0, 7, 14, 21, 28, 35, 42, 49, 56, 63] (0 : BitVec 64)
    show Reads b _ (Option.map _ _)
    cases hd : decodeVar [0, 7, 14, 21, 28, 35, 42, 49, 56, 63] (0 : BitVec 64) b.unread with
    | none =>
      obtain ⟨b', hrun⟩ := hno hd
      refine ⟨b', ?_⟩
      show (do let len ← readUint64; pure len.toNat : M Nat) b = _
      rw [Prog.bind_apply, readUint64, hrun]
      rfl
    | some p =>
      refine ⟨?_, decodeVar_le hd⟩
      show (do let len ← readUint64; pure len.toNat : M Nat) b = _
      rw [Prog.bind_apply, readUint64, hok p.1 p.2 hd]
      rfl

/-! ## What the readers are to do -/

/-- A read of a string throws `out_of_range` just when the length is incomplete or larger than the
bytes behind it, throws nothing else, returns otherwise, and never sizes its result beyond these
bytes. -/
structure RejectsInTime (f : StringFormat) (b : ByteArray) : Prop where
  rejects : (∃ what s, readStringSized f (b, []) = .thrown (.outOfRange what) s) ↔
    ∀ len k, lengthPrefix f b.endian b.unread = some (len, k) → b.getReadSize - k < len
  nothing_else : ∀ e s, readStringSized f (b, []) = .thrown e s → ∃ what, e = .outOfRange what
  no_fault : ∀ x, readStringSized f (b, []) ≠ .fault x
  sizes : ∀ s, (readStringSized f (b, [])).state? = some s →
    ∀ n ∈ s.2, ∀ len k, lengthPrefix f b.endian b.unread = some (len, k) → n ≤ b.getReadSize - k

/-- The length is incomplete, or the bytes it announces are there; if it announces none, there is
still room behind it. -/
def Announced (f : StringFormat) (b : ByteArray) : Prop :=
  ∀ len k, lengthPrefix f b.endian b.unread = some (len, k) →
    len ≤ b.getReadSize - k ∧ len ≤ maxStringSize ∧ ¬ (len = 0 ∧ b.position + k = b.capacity)

theorem readStringSized_eq {b : ByteArray} (h : Inv b) {f : StringFormat} {len k : Nat}
    (hp : lengthPrefix f b.endian b.unread = some (len, k)) :
    readStringSized f (b, []) =
      if maxStringSize < len then
        .thrown (.lengthError "basic_string::_M_replace_aux") (b.advance k, [])
      else if b.getReadSize - k < len then
        .thrown (.outOfRange "not enough length") (b.advance k, [len])
      else if len = 0 ∧ b.position + k = b.capacity then .fault .nullDeref
      else .ok (((flat b.nodes).drop (b.position + k)).take len)
        ((b.advance k).advance len, [len]) := by
  have hreads := readLength_reads h f
  rw [hp] at hreads
  obtain ⟨hlen, hk⟩ := hreads
  have hread : (b.advance k).size - (b.advance k).position = b.getReadSize - k := by
    show b.size - (b.position + k) = b.size - b.position - k
    omega
  rw [readStringSized, Prog.bind_apply, onArray_ok [] hlen, Outcome.bind_ok, Prog.bind_apply]
  by_cases hmax : maxStringSize < len
  · rw [if_pos hmax, resizeBuf_long hmax]
    rfl
  · -- the buffer has its size now, before `read` compares it with the bytes left
    rw [if_neg hmax, resizeBuf_ok hmax, Outcome.bind_ok]
    have hbody := read_eq (advance_inv_of_le h hk) len
    rw [hread] at hbody
    by_cases hshort : b.getReadSize - k < len
    · rw [if_pos hshort] at hbody ⊢
      exact onArray_thrown [len] hbody
    · rw [if_neg hshort] at hbody ⊢
      by_cases hnull : len = 0 ∧ b.position + k = b.capacity
      · rw [if_pos hnull]
        exact onArray_fault [len] (hbody.trans (if_pos hnull))
      · rw [if_neg hnull]
        exact onArray_ok [len] (hbody.trans (if_neg hnull))

theorem readStringSized_short {b : ByteArray} (h : Inv b) {f : StringFormat}
    (hp : lengthPrefix f b.endian b.unread = none) :
    ∃ b', readStringSized f (b, []) = .thrown (.outOfRange "not enough length") (b', []) := by
  have hreads := readLength_reads h f
  rw [hp] at hreads
  obtain ⟨b', hrun⟩ := hreads
  refine ⟨b', ?_⟩
  rw [readStringSized, Prog.bind_apply, onArray_thrown [] hrun]
  rfl

theorem rejectsInTime_iff {b : ByteArray} (h : Inv b) (f : StringFormat) :
    RejectsInTime f b ↔ Announced f b := by
  cases hp : lengthPrefix f b.endian b.unread with
  | none =>
    obtain ⟨b', hrun⟩ := readStringSized_short h hp
    refine iff_of_true ⟨?_, ?_, ?_, ?_⟩ fun len k hno => by rw [hp] at hno; cases hno
    · exact iff_of_true ⟨_, _, hrun⟩ fun len k hno => by rw [hp] at hno; cases hno
    · intro e s hthrown
      rw [hrun] at hthrown
      cases hthrown
      exact ⟨_, rfl⟩
    · intro x hfault
      rw [hrun] at hfault
      cases hfault
    · intro s _ n _ len k hno
      rw [hp] at hno
      cases hno
  | some p =>
    obtain ⟨len, k⟩ := p
    have hrun := readStringSized_eq h hp
    constructor
    · intro hok len' k' hp'
      cases hp.symm.trans hp'
      -- each of the other endings contradicts one field of `hok`
      by_cases hmax : maxStringSize < len
      · rw [if_pos hmax] at hrun
        obtain ⟨what, hwhat⟩ := hok.nothing_else _ _ hrun
        cases hwhat
      · rw [if_neg hmax] at hrun
        by_cases hshort : b.getReadSize - k < len
        · rw [if_pos hshort] at hrun
          have hle := hok.sizes _ (by rw [hrun]; rfl) len (List.mem_singleton.mpr rfl) len k hp
          omega
        · rw [if_neg hshort] at hrun
          by_cases hnull : len = 0 ∧ b.position + k = b.capacity
          · rw [if_pos hnull] at hrun
            exact absurd hrun (hok.no_fault _)
          · exact ⟨by omega, by omega, hnull⟩
    · intro hann
      obtain ⟨hle, hmax, hnull⟩ := hann len k hp
      rw [if_neg (by omega), if_neg (by omega), if_neg hnull] at hrun
      refine ⟨?_, ?_, ?_, ?_⟩
      · refine iff_of_false ?_ fun hlt => ?_
        · rintro ⟨what, s, hthrown⟩
          rw [hrun] at hthrown
          cases hthrown
        · have := hlt len k hp
          omega
      · intro e s hthrown
        rw [hrun] at hthrown
        cases hthrown
      · intro x hfault
        rw [hrun] at hfault
        cases hfault
      · intro s hs n hn len' k' hp'
        cases hp.symm.trans hp'
        rw [hrun] at hs
        cases hs
        rw [List.mem_singleton.mp hn]
        exact hle

/-- **Reading strings.**  In every reachable state, each of the four readers rejects a string in
time exactly when the length in front is incomplete or announces bytes that are there. -/
theorem strings_rejected_iff (base : Nat) (hb : 1 ≤ base) (heap : Nat → UInt8) (ops : List Op)
    (b : ByteArray) (h : runFrom step (new base heap) ops = some b) (f : StringFormat) :
    RejectsInTime f b ↔ Announced f b :=
  rejectsInTime_iff (run_inv hb h) f

/-- A string of one byte, read from the start. -/
theorem strings_rejected_one :
    ∃ b, runFrom step (new 8 fun _ => 0) [.write [0, 1, 97], .setPosition 0] = some b ∧
      RejectsInTime .fix16 b :=
  ⟨_, rfl, (strings_rejected_iff 8 (by decide) (fun _ => 0)
    [.write [0, 1, 97], .setPosition 0] _ rfl .fix16).mpr (by
      intro len k hp
      cases hp
      decide)⟩

/-- Two bytes from a peer, with nothing behind them: the result is sized for 65535 bytes before the
call throws. -/
theorem strings_sized_by_the_peer :
    ¬ ∀ (base : Nat), 1 ≤ base → ∀ (heap : Nat → UInt8) (ops : List Op) (b : ByteArray),
      runFrom step (new base heap) ops = some b → ∀ f : StringFormat, RejectsInTime f b := by
  intro h
  have hsizes := (h 8 (by decide) (fun _ => 0) [.write [0xFF, 0xFF], .setPosition 0] _ rfl
    .fix16).sizes _ rfl 65535 (by decide) 65535 2 (by decide)
  exact absurd hsizes (by decide)

end Luwu.ByteArray
