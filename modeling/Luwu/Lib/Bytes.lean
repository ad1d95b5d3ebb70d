import Mathlib.Algebra.Group.Nat.Defs
import Mathlib.Data.List.Basic

/-! # Byte strings -/

namespace Luwu

abbrev Bytes := List UInt8

/-- A C string literal, without its terminating zero. -/
def ascii (s : String) : Bytes := s.toList.map Char.toUInt8

/-- A fact about the bytes of a string is decided along the string, not over all bytes. -/
instance (priority := 1100) decidableBytesAll (l : Bytes) (p : UInt8 → Prop) [DecidablePred p] :
    Decidable (∀ c ∈ l, p c) :=
  List.decidableBAll p l

/-- A fact about every byte that can be checked byte by byte. -/
theorem forall_byte {P : UInt8 → Prop} (h : ∀ n : Fin 256, P (UInt8.ofFin n)) (c : UInt8) : P c :=
  h c.toFin

end Luwu
