import Luwu.HttpParser.Execute
import Mathlib.Data.List.GetD
import Mathlib.Data.List.Induction

/-!
# The bundled http_parser: field names

While it reads a field name, `http_parser_execute` matches it against the names it knows, one
character at a time in lower case.  `nameState` is where that leads; it is one of the states of a
known name just for that name.
-/

namespace Luwu.HttpParser

/-- The characters of a field name. -/
def IsName (n : Bytes) : Prop := n ≠ [] ∧ ∀ c ∈ n, token c ≠ 0

instance (n : Bytes) : Decidable (IsName n) := inferInstanceAs (Decidable (_ ∧ _))

/-- `header_state` and `index` at the first character of a name. -/
def firstChar (c : UInt8) : HeaderState × Nat :=
  (if c = 'c'.toUInt8 then .C
    else if c = 'p'.toUInt8 then .matchingProxyConnection
    else if c = 't'.toUInt8 then .matchingTransferEncoding
    else if c = 'u'.toUInt8 then .matchingUpgrade
    else .general, 0)

/-- The same at a further character. -/
def nameChar (m : HeaderState × Nat) (c : UInt8) : HeaderState × Nat :=
  let p := fieldChar c c { Parser.init .request with headerState := m.1, index := m.2 }
  (p.headerState, p.index)

/-- The same after the characters `w`, which are in lower case. -/
def nameState : Bytes → HeaderState × Nat
  | [] => (.general, 0)
  | c :: w => w.foldl nameChar (firstChar c)

theorem nameState_snoc {w : Bytes} (hw : w ≠ []) (c : UInt8) :
    nameState (w ++ [c]) = nameChar (nameState w) c := by
  cases w with
  | nil => exact absurd rfl hw
  | cons d w =>
    change (w ++ [c]).foldl nameChar (firstChar d) = _
    rw [List.foldl_append]
    rfl

theorem matchWord_eq (word : Bytes) (hit miss : HeaderState) (c : UInt8) (p : Parser) :
    matchWord word hit miss c p =
      { p with
        index := p.index + 1
        headerState :=
          if p.index + 1 > word.length ∨ c ≠ word.getD (p.index + 1) 0 then miss
          else if p.index + 1 = word.length - 1 then hit
          else p.headerState } := by
  unfold matchWord
  dsimp only
  split
  · rfl
  · split <;> rfl

/-- A character of a name touches the two fields and nothing else. -/
theorem fieldChar_eq {ch c : UInt8} (hch : ch ≠ SP) (hc : c ≠ SP) (p : Parser) :
    fieldChar ch c p =
      { p with
        headerState := (nameChar (p.headerState, p.index) c).1
        index := (nameChar (p.headerState, p.index) c).2 } := by
  obtain ⟨type, flags, state, headerState, index, lenient, nread, length, major, minor, status,
    method, errno, upgrade⟩ := p
  cases headerState <;>
    simp only [nameChar, fieldChar, matchWord_eq, hch, hc, ne_eq, not_false_eq_true, if_true]

/-- What the state says about the characters so far. -/
def NameInv (w : Bytes) (m : HeaderState × Nat) : Prop :=
  match m.1 with
  | .general => True
  | .C => w = ascii "c" ∧ m.2 = 0
  | .CO => w = ascii "co" ∧ m.2 = 1
  | .CON => w = ascii "con" ∧ m.2 = 2
  | .matchingConnection => w = (ascii "connection").take (m.2 + 1) ∧ m.2 < 9
  | .matchingProxyConnection => w = (ascii "proxy-connection").take (m.2 + 1) ∧ m.2 < 15
  | .matchingContentLength => w = (ascii "content-length").take (m.2 + 1) ∧ m.2 < 13
  | .matchingTransferEncoding => w = (ascii "transfer-encoding").take (m.2 + 1) ∧ m.2 < 16
  | .matchingUpgrade => w = (ascii "upgrade").take (m.2 + 1) ∧ m.2 < 6
  | .connection => w = ascii "connection" ∨ w = ascii "proxy-connection"
  | .contentLength => w = ascii "content-length"
  | .transferEncoding => w = ascii "transfer-encoding"
  | .upgrade => w = ascii "upgrade"
  | _ => False

theorem firstChar_inv (c : UInt8) : NameInv [c] (firstChar c) := by
  unfold firstChar
  split
  · next h => exact ⟨by rw [h]; rfl, rfl⟩
  · split
    · next h => exact ⟨by rw [h]; rfl, by decide⟩
    · split
      · next h => exact ⟨by rw [h]; rfl, by decide⟩
      · split
        · next h => exact ⟨by rw [h]; rfl, by decide⟩
        · exact trivial

/-- One step of matching the characters so far against a word. -/
theorem nameInv_matchWord {w word : Bytes} {hit : HeaderState} {c : UInt8} {p : Parser}
    (hw : w = word.take (p.index + 1)) (hlt : p.index < word.length - 1)
    (hhit : ∀ i, NameInv word (hit, i))
    (hmiss : ∀ i, i < word.length - 1 → NameInv (word.take (i + 1)) (p.headerState, i)) :
    NameInv (w ++ [c])
      ((matchWord word hit .general c p).headerState, (matchWord word hit .general c p).index) := by
  rw [matchWord_eq]
  dsimp only
  by_cases hbad : p.index + 1 > word.length ∨ c ≠ word.getD (p.index + 1) 0
  · rw [if_pos hbad]
    exact trivial
  · rw [if_neg hbad]
    rw [not_or, not_not] at hbad
    have hin : p.index + 1 < word.length := by omega
    have hnext : w ++ [c] = word.take (p.index + 2) := by
      rw [hw, hbad.2, List.getD_eq_getElem _ _ hin, ← List.take_append_getElem hin]
    split
    · next hend =>
      rw [hnext, show p.index + 2 = word.length by omega, List.take_length]
      exact hhit _
    · next hmore =>
      rw [hnext]
      exact hmiss (p.index + 1) (by omega)

theorem nameChar_inv {w : Bytes} {m : HeaderState × Nat} {c : UInt8} (hc : c ≠ SP)
    (h : NameInv w m) : NameInv (w ++ [c]) (nameChar m c) := by
  obtain ⟨st, i⟩ := m
  cases st with
  | general => exact trivial
  | C =>
    obtain ⟨rfl, hi⟩ := h
    cases hi
    change NameInv _ (if c = 'o'.toUInt8 then HeaderState.CO else .general, 1)
    split
    · next hco =>
      rw [hco]
      exact ⟨rfl, rfl⟩
    · exact trivial
  | CO =>
    obtain ⟨rfl, hi⟩ := h
    cases hi
    change NameInv _ (if c = 'n'.toUInt8 then HeaderState.CON else .general, 2)
    split
    · next hcon =>
      rw [hcon]
      exact ⟨rfl, rfl⟩
    · exact trivial
  | CON =>
    obtain ⟨rfl, hi⟩ := h
    cases hi
    change NameInv _ (if c = 'n'.toUInt8 then HeaderState.matchingConnection
      else if c = 't'.toUInt8 then .matchingContentLength else .general, 3)
    split
    · next hn =>
      rw [hn]
      exact ⟨rfl, by decide⟩
    · split
      · next ht =>
        rw [ht]
        exact ⟨rfl, by decide⟩
      · exact trivial
  | matchingConnection =>
    exact nameInv_matchWord h.1 h.2 (fun _ => .inl rfl) fun _ hi => ⟨rfl, hi⟩
  | matchingProxyConnection =>
    exact nameInv_matchWord h.1 h.2 (fun _ => .inr rfl) fun _ hi => ⟨rfl, hi⟩
  | matchingContentLength =>
    exact nameInv_matchWord h.1 h.2 (fun _ => rfl) fun _ hi => ⟨rfl, hi⟩
  | matchingTransferEncoding =>
    exact nameInv_matchWord h.1 h.2 (fun _ => rfl) fun _ hi => ⟨rfl, hi⟩
  | matchingUpgrade =>
    exact nameInv_matchWord h.1 h.2 (fun _ => rfl) fun _ hi => ⟨rfl, hi⟩
  | connection | contentLength | transferEncoding | upgrade =>
    -- the name goes on after one that is known
    simp only [nameChar, fieldChar, hc, ne_eq, not_false_eq_true, if_true]
    exact trivial
  | _ => exact h.elim

/-- **The state after a name tells which name it is.** -/
theorem nameState_inv {w : Bytes} (hw : w ≠ []) (hsp : SP ∉ w) : NameInv w (nameState w) := by
  induction w using List.reverseRecOn with
  | nil => exact absurd rfl hw
  | append_singleton w c ih =>
    rw [List.mem_append, not_or, List.mem_singleton] at hsp
    by_cases hnil : w = []
    · rw [hnil]
      exact firstChar_inv c
    · rw [nameState_snoc hnil]
      exact nameChar_inv (Ne.symm hsp.2) (ih hnil hsp.1)

end Luwu.HttpParser
