import Luwu.Lib.Bytes
import Luwu.Lib.Lexicographic

/-!
# Addresses

The classes derived from `Address` hold a `sockaddr` of their family.  The operators compare the
bytes from `getAddr ()` on, as many as `getAddrLen ()` says.
-/

namespace Luwu

open Lib

/-- What stands at a pointer and behind it. -/
abbrev Memory := Nat → UInt8

def Memory.copy (m : Memory) (n : Nat) : Vector UInt8 n := Vector.ofFn fun i => m i

/-- An address object.  The length of a `UnixAddress` can be set, also past its `sockaddr_un`;
`behind` is what stands there. -/
inductive Address where
  | ipv4 (addr : Vector UInt8 16)
  | ipv6 (addr : Vector UInt8 28)
  | unix (addr : Vector UInt8 110) (length : UInt32) (behind : Memory)
  | unknown (addr : Vector UInt8 16)

namespace Address

def afInet : Nat := 2
def afInet6 : Nat := 10

/-- `Create`. -/
def create (addr : Option Memory) : Option Address :=
  addr.map fun m =>
    let family := (m 0).toNat + 256 * (m 1).toNat
    if family = afInet then .ipv4 (m.copy 16)
    else if family = afInet6 then .ipv6 (m.copy 28)
    else .unknown (m.copy 16)

def getAddrLen : Address → Nat
  | ipv4 _ => 16
  | ipv6 _ => 28
  | unix _ length _ => length.toNat
  | unknown _ => 16

/-- The first `n` bytes from `getAddr ()` on. -/
def getAddr (a : Address) (n : Nat) : Bytes :=
  match a with
  | ipv4 addr => addr.toList.take n
  | ipv6 addr => addr.toList.take n
  | unix addr _ behind =>
    (List.range n).map fun i => if h : i < 110 then addr[i] else behind (i - 110)
  | unknown addr => addr.toList.take n

def operatorLt (a rhs : Address) : Bool :=
  let minLen := min a.getAddrLen rhs.getAddrLen
  match memcmp (a.getAddr minLen) (rhs.getAddr minLen) with
  | .lt => true
  | .gt => false
  | .eq => if a.getAddrLen < rhs.getAddrLen then true else false

def operatorEq (a rhs : Address) : Bool :=
  a.getAddrLen = rhs.getAddrLen ∧
    memcmp (a.getAddr a.getAddrLen) (rhs.getAddr a.getAddrLen) ≠ .eq

def operatorNe (a rhs : Address) : Bool := !a.operatorEq rhs

/-- The bytes that the operators compare. -/
def bytes (a : Address) : Bytes := a.getAddr a.getAddrLen

variable {a b : Address}

theorem length_bytes (a : Address) : a.bytes.length = a.getAddrLen := by
  cases a <;> simp [bytes, getAddr, getAddrLen]

theorem getAddr_eq {n : Nat} (hn : n ≤ a.getAddrLen) : a.getAddr n = a.bytes.take n := by
  cases a with
  | unix addr length behind =>
    have hn : n ≤ length.toNat := hn
    simp only [bytes, getAddr, getAddrLen, ← List.map_take, List.take_range, Nat.min_eq_left hn]
  | _ => simp only [bytes, getAddr, List.take_take, Nat.min_eq_left hn]

/-- `operator<` is the lexicographic order of the bytes. -/
theorem operatorLt_iff (a b : Address) : a.operatorLt b = true ↔ a.bytes < b.bytes := by
  have hcmp : memcmp (a.getAddr (min a.getAddrLen b.getAddrLen))
      (b.getAddr (min a.getAddrLen b.getAddrLen)) = memcmp a.bytes b.bytes := by
    rw [getAddr_eq (Nat.min_le_left _ _), getAddr_eq (Nat.min_le_right _ _), ← length_bytes a,
      ← length_bytes b, memcmp_take]
  rw [← memcmp_lt_iff, length_bytes, length_bytes, operatorLt, hcmp]
  cases memcmp a.bytes b.bytes <;> simp

/-- `operator==` holds of two addresses of the same length that differ. -/
theorem operatorEq_iff (a b : Address) :
    a.operatorEq b = true ↔ a.getAddrLen = b.getAddrLen ∧ a.bytes ≠ b.bytes := by
  rw [operatorEq, decide_eq_true_iff]
  refine and_congr_right fun hlen => ?_
  show memcmp a.bytes (b.getAddr a.getAddrLen) ≠ .eq ↔ _
  rw [hlen]
  show memcmp a.bytes b.bytes ≠ .eq ↔ _
  exact not_congr (memcmp_eq_iff (by rw [length_bytes, length_bytes, hlen]))

/-- The same length and the same bytes. -/
def SameBytes (a b : Address) : Prop := a.getAddrLen = b.getAddrLen ∧ a.bytes = b.bytes

theorem sameBytes_iff (a b : Address) : SameBytes a b ↔ a.bytes = b.bytes :=
  and_iff_right_of_imp fun h => by rw [← length_bytes a, ← length_bytes b, h]

/-- `operator<` orders the addresses strictly, up to the same bytes. -/
theorem operatorLt_strict : StrictTotalUpTo SameBytes fun a b => a.operatorLt b = true := by
  have himage : StrictTotalUpTo (fun a b : Address => a.bytes = b.bytes)
      fun a b => a.operatorLt b = true := .image operatorLt_iff
  have hsame : SameBytes = fun a b => a.bytes = b.bytes :=
    funext fun a => funext fun b => propext (sameBytes_iff a b)
  rwa [hsame]

/-- The operators say the same of two addresses. -/
structure OperatorsAgree (a b : Address) : Prop where
  same_iff : a.operatorEq b = true ↔ SameBytes a b
  incomparable_iff : a.operatorEq b = true ↔ a.operatorLt b = false ∧ b.operatorLt a = false
  ne : a.operatorNe b = !a.operatorEq b

/-- The order is a strict total one, but `operator==` tells whether the bytes differ: it is right
only about addresses of different lengths. -/
theorem operators_iff (a b : Address) :
    (StrictTotalUpTo SameBytes fun a b => a.operatorLt b = true) ∧
      (OperatorsAgree a b ↔ a.getAddrLen ≠ b.getAddrLen) := by
  refine ⟨operatorLt_strict, ?_, ?_⟩
  · rintro ⟨hsame, -, -⟩ hlen
    rw [operatorEq_iff] at hsame
    by_cases hbytes : a.bytes = b.bytes
    · exact (hsame.mpr ⟨hlen, hbytes⟩).2 hbytes
    · exact hbytes (hsame.mp ⟨hlen, hbytes⟩).2
  · intro hlen
    have heq : ¬ a.operatorEq b = true := fun h => hlen ((operatorEq_iff a b).mp h).1
    have hsame : ¬ SameBytes a b := fun h => hlen h.1
    constructor
    case same_iff => exact iff_of_false heq hsame
    case incomparable_iff =>
      refine iff_of_false heq ?_
      rintro ⟨hlt, hgt⟩
      rcases operatorLt_strict.total a b with h | h | h
      · exact absurd h (Bool.eq_false_iff.mp hlt)
      · exact hsame h
      · exact absurd h (Bool.eq_false_iff.mp hgt)
    case ne => rfl

/-- An address is not equal to itself. -/
theorem operatorEq_self : ∃ a : Address, SameBytes a a ∧ a.operatorEq a = false :=
  ⟨.ipv4 (.replicate 16 0), ⟨rfl, rfl⟩, by decide⟩

end Address

end Luwu
