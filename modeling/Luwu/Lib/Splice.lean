import Mathlib.Data.List.Basic
import Mathlib.Data.List.TakeDrop

/-!
# Overwriting a stretch of a list

`splice l pos d` is what `memcpy (l + pos, d, |d|)` leaves in a buffer `l`.
-/

namespace Luwu.Lib

variable {α : Type}

def splice (l : List α) (pos : Nat) (d : List α) : List α :=
  l.take pos ++ d ++ l.drop (pos + d.length)

theorem length_splice {l d : List α} {pos : Nat} (h : pos + d.length ≤ l.length) :
    (splice l pos d).length = l.length := by
  simp only [splice, List.length_append, List.length_take, List.length_drop]
  omega

@[simp] theorem splice_nil (l : List α) (pos : Nat) : splice l pos [] = l := by
  simp [splice]

theorem splice_append_left {a b d : List α} {pos : Nat} (h : pos + d.length ≤ a.length) :
    splice (a ++ b) pos d = splice a pos d ++ b := by
  simp only [splice]
  rw [List.take_append_of_le_length (by omega), List.drop_append_of_le_length h]
  simp only [List.append_assoc]

theorem splice_append_right {a b d : List α} {pos : Nat} (h : a.length ≤ pos) :
    splice (a ++ b) pos d = a ++ splice b (pos - a.length) d := by
  simp only [splice]
  rw [List.take_append, List.drop_append, List.take_of_length_le h,
    List.drop_of_length_le (by omega), List.nil_append,
    show pos + d.length - a.length = pos - a.length + d.length by omega]
  simp only [List.append_assoc]

/-- An overwrite that fills the first buffer up and goes on in the second. -/
theorem splice_append_split {a b d : List α} {pos n : Nat} (hn : pos + n = a.length)
    (hd : n ≤ d.length) :
    splice (a ++ b) pos d = splice a pos (d.take n) ++ splice b 0 (d.drop n) := by
  have htake : (d.take n).length = n := by rw [List.length_take]; omega
  have hdrop : (d.drop n).length = d.length - n := List.length_drop
  simp only [splice]
  rw [htake, hdrop, List.take_append_of_le_length (by omega), List.drop_append,
    List.drop_of_length_le (by omega : a.length ≤ pos + n),
    List.drop_of_length_le (by omega : a.length ≤ pos + d.length),
    show pos + d.length - a.length = 0 + (d.length - n) by omega]
  simp only [List.take_zero, List.nil_append, List.append_nil, List.append_assoc]
  rw [← List.append_assoc (d.take n), List.take_append_drop]

/-- The bytes below the end of the overwrite, when it ends past them. -/
theorem take_splice_of_le {l d : List α} {pos n : Nat} (hpos : pos ≤ l.length)
    (hn : n = pos + d.length) : (splice l pos d).take n = l.take pos ++ d := by
  have hlen : (l.take pos ++ d).length = n := by
    simp only [List.length_append, List.length_take]
    omega
  rw [splice, List.take_append_of_le_length (by omega), List.take_of_length_le (by omega)]

/-- Cutting a buffer behind an overwrite commutes with the overwrite. -/
theorem take_splice_of_ge {l d : List α} {pos n : Nat} (hn : pos + d.length ≤ n)
    (hl : n ≤ l.length) : (splice l pos d).take n = splice (l.take n) pos d := by
  conv_lhs => rw [← List.take_append_drop n l]
  have hlen : (l.take n).length = n := by rw [List.length_take]; omega
  rw [splice_append_left (by omega), List.take_append_of_le_length (by
    rw [length_splice (by omega)]; omega), List.take_of_length_le (by
    rw [length_splice (by omega)]; omega)]

theorem splice_splice {l d e : List α} {pos : Nat} (h : pos ≤ l.length) :
    splice (splice l pos d) (pos + d.length) e = splice l pos (d ++ e) := by
  have hlen : (l.take pos ++ d).length = pos + d.length := by
    rw [List.length_append, List.length_take, Nat.min_eq_left h]
  have hrest : (l.take pos ++ d ++ l.drop (pos + d.length)).drop (pos + d.length + e.length) =
      l.drop (pos + (d ++ e).length) := by
    rw [List.drop_append, List.drop_of_length_le (by rw [hlen]; omega), List.nil_append, hlen,
      List.drop_drop, List.length_append]
    congr 1
    omega
  unfold splice
  rw [hrest, List.take_left' hlen, List.append_assoc (l.take pos) d e]

/-- What has been written stands where it was written. -/
theorem drop_splice {l d : List α} {pos : Nat} (h : pos ≤ l.length) :
    (splice l pos d).drop pos = d ++ l.drop (pos + d.length) := by
  have hlen : (l.take pos).length = pos := by rw [List.length_take, Nat.min_eq_left h]
  rw [splice, List.append_assoc, List.drop_left' hlen]

end Luwu.Lib
