import Mathlib.Data.List.Forall2
import Luwu.Http.Message
import Luwu.Net.InetPton
import Luwu.Net.Masks

/-!
# The text of an IPv6 address

`dump` writes the groups in one pass.  It writes nothing for a zero group until it has written the
`::`, and the `::` comes with the first group behind the zeros, or at the end.
-/

namespace Luwu

open Lib Luwu.ByteArray Inet

/-- The base in which a stream writes integers. -/
inductive Base where
  | dec
  | hex
deriving DecidableEq, Repr

/-- What has been written to a stream, and its base. -/
structure Ostream where
  text : Bytes := []
  base : Base := .dec
deriving DecidableEq, Repr

def xdigit (n : Nat) : UInt8 := .ofNat (if n < 10 then 48 + n else 87 + n)

/-- A number in lower-case hexadecimal digits. -/
def hexadecimal (n : Nat) : Bytes :=
  if n < 16 then [xdigit n] else hexadecimal (n / 16) ++ [xdigit (n % 16)]
termination_by n

namespace Ostream

def put (os : Ostream) (s : Bytes) : Ostream := { os with text := os.text ++ s }

def setBase (os : Ostream) (base : Base) : Ostream := { os with base := base }

def putNat (os : Ostream) (n : Nat) : Ostream :=
  os.put (match os.base with | .dec => Http.decimal n | .hex => hexadecimal n)

end Ostream

namespace IPv6Address

/-- `addr[i]` for `uint16_t *addr`. -/
def word (addr : Vector UInt8 28) (i : Nat) : BitVec (8 * 2) :=
  BitVec.ofNat _ (ofBytes (((s6Addr addr).drop (2 * i)).take 2))

def getPort (addr : Vector UInt8 28) : BitVec (8 * 2) :=
  byteSwap 2 (BitVec.ofNat _ (ofBytes (port addr)))

/-- The body of the loop of `dump`; the flag is `used_zeros`. -/
def dumpGroup (addr : Vector UInt8 28) (s : Ostream × Bool) (i : Nat) : Ostream × Bool :=
  if word addr i = 0 ∧ s.2 = false then s
  else
    let s := if i ≠ 0 ∧ word addr (i - 1) = 0 ∧ s.2 = false then (s.1.put (ascii ":"), true) else s
    let os := if i ≠ 0 then s.1.put (ascii ":") else s.1
    (((os.setBase .hex).putNat (byteSwap 2 (word addr i)).toNat).setBase .dec, s.2)

def dump (addr : Vector UInt8 28) (os : Ostream) : Ostream :=
  let s := (List.range 8).foldl (dumpGroup addr) (os.put (ascii "["), false)
  let os := if s.2 = false ∧ word addr 7 = 0 then s.1.put (ascii "::") else s.1
  (os.put (ascii "]:")).putNat (getPort addr).toNat

/-- The constructor from the bytes of an address and a port. -/
def make (address : Bytes) (port : BitVec (8 * 2)) : Vector UInt8 28 :=
  Vector.ofFn fun i => (toBytes 2 (BitVec.ofNat _ Address.afInet6) ++ toBytes 2 (byteSwap 2 port) ++
    toBytes 4 0 ++ address ++ toBytes 4 0).getD i 0

/-- `Create`. -/
def create (address : Bytes) (port : BitVec (8 * 2)) : Option (Vector UInt8 28) :=
  (inetPton6 address).map fun s6Addr => make s6Addr port

/-- Group `i`, as a number. -/
def group (addr : Vector UInt8 28) (i : Nat) : Nat := (byteSwap 2 (word addr i)).toNat

def groups (addr : Vector UInt8 28) : List Nat := (List.range 8).map (group addr)

/-! ## Hexadecimal numbers -/

theorem hexDigitValue_xdigit {d : Nat} (hd : d < 16) : hexDigitValue (xdigit d) = some d := by
  revert d
  decide

theorem foldlM_hexadecimal (n : Nat) :
    (hexadecimal n).foldlM (fun v c => (hexDigitValue c).map (16 * v + ·)) 0 = some n := by
  fun_induction hexadecimal n with
  | case1 n hn =>
    rw [List.foldlM_cons, hexDigitValue_xdigit hn]
    simp
  | case2 n hn ih =>
    rw [List.foldlM_append, ih]
    simp only [Option.bind_eq_bind, Option.bind_some, List.foldlM_cons, List.foldlM_nil,
      hexDigitValue_xdigit (Nat.mod_lt n (show 0 < 16 by decide)), Option.map_some, Nat.div_add_mod]
    rfl

theorem length_hexadecimal {n k : Nat} (hn : n < 16 ^ (k + 1)) :
    (hexadecimal n).length ≤ k + 1 := by
  induction k generalizing n with
  | zero =>
    -- a single digit
    rw [hexadecimal, if_pos (by simpa using hn)]
    exact Nat.le_refl 1
  | succ k ih =>
    rw [hexadecimal]
    split
    · exact Nat.succ_le_succ (Nat.zero_le _)
    · rw [List.length_append]
      exact Nat.succ_le_succ (ih (Nat.div_lt_of_lt_mul (by rwa [← Nat.pow_succ'])))

/-- What the stream writes for a `uint16_t` is a group of the grammar. -/
theorem isGroup_hexadecimal {n : Nat} (hn : n < 65536) : IsGroup (hexadecimal n) n where
  ne_nil := by
    rw [hexadecimal]
    split
    · exact List.cons_ne_nil _ _
    · exact List.append_ne_nil_of_right_ne_nil _ (List.cons_ne_nil _ _)
  length_le := length_hexadecimal (k := 3) hn
  value := foldlM_hexadecimal n

theorem isGroup_map {gs : List Nat} (h : ∀ g ∈ gs, g < 65536) :
    List.Forall₂ IsGroup (gs.map hexadecimal) gs := by
  rw [List.forall₂_map_left_iff, List.forall₂_same]
  exact fun g hg => isGroup_hexadecimal (h g hg)

/-! ## Groups and bytes -/

section

variable {addr : Vector UInt8 28} {i : Nat}

theorem group_lt : group addr i < 65536 := (byteSwap 2 (word addr i)).isLt

theorem group_eq_zero : group addr i = 0 ↔ word addr i = 0 := by
  rw [← byteSwap_eq_zero (n := 2), ← BitVec.toNat_inj]
  rfl

/-- Two bytes read as a `uint16_t` and swapped. -/
theorem toNat_swapped (a b : UInt8) :
    (byteSwap 2 (BitVec.ofNat (8 * 2) (ofBytes [a, b]))).toNat = 256 * a.toNat + b.toNat := by
  have hbytes : toBytes 2 (BitVec.ofNat (8 * 2) (ofBytes [a, b])) = [a, b] := by
    refine ofBytes_inj (by simp) ?_
    rw [ofBytes_toBytes, BitVec.toNat_ofNat, two_pow_bytes]
    exact Nat.mod_eq_of_lt (ofBytes_lt [a, b])
  rw [toNat_byteSwap, hbytes]
  show b.toNat + 256 * (a.toNat + 256 * 0) = _
  omega

theorem groupBytes_swapped (a b : UInt8) : groupBytes (256 * a.toNat + b.toNat) = [a, b] := by
  have hb := b.toNat_lt
  rw [groupBytes, show (256 * a.toNat + b.toNat) / 256 = a.toNat by omega, UInt8.ofNat_toNat,
    List.cons.injEq, List.cons.injEq]
  refine ⟨rfl, UInt8.toNat_inj.mp ?_, rfl⟩
  rw [UInt8.toNat_ofNat']
  omega

theorem flatMap_pairs {α : Type} {n : Nat} {l : List α} (hl : l.length = 2 * n) :
    ((List.range n).flatMap fun i => (l.drop (2 * i)).take 2) = l := by
  induction n generalizing l with
  | zero => exact (List.length_eq_zero_iff.mp hl).symm
  | succ n ih =>
    have hrest := ih (l := l.drop 2) (by rw [List.length_drop]; omega)
    simp only [List.drop_drop] at hrest
    rw [List.range_succ_eq_map, List.flatMap_cons, List.flatMap_map]
    simp only [Nat.mul_zero, List.drop_zero, Nat.mul_succ, Nat.add_comm _ 2]
    rw [hrest, List.take_append_drop]

/-- The bytes of the groups are the bytes of the address. -/
theorem flatMap_groups : (groups addr).flatMap groupBytes = s6Addr addr := by
  have hlen : (s6Addr addr).length = 2 * 8 := by simp [s6Addr]
  rw [groups, List.flatMap_map, ← flatMap_pairs hlen]
  refine List.flatMap_congr fun i hi => ?_
  have hi : i < 8 := List.mem_range.mp hi
  obtain ⟨a, b, hab⟩ : ∃ a b, ((s6Addr addr).drop (2 * i)).take 2 = [a, b] :=
    List.length_eq_two.mp (by rw [List.length_take, List.length_drop]; omega)
  rw [group, word, hab, toNat_swapped, groupBytes_swapped]

theorem group_before (hi : i ≠ 0) :
    ((List.range i).map (group addr)).getLast? = some (group addr (i - 1)) := by
  obtain ⟨k, rfl⟩ := Nat.exists_eq_succ_of_ne_zero hi
  rw [List.range_succ, List.map_append, List.map_singleton, List.getLast?_concat]
  rfl

end

/-! ## The loop -/

/-- The text of some groups, after the bracket, and the flag.  Zeros at the end are to come. -/
inductive Dumped : List Nat → Bool → Bytes → Prop
  | pending {pre : List Nat} (zeros : Nat) (hpre : ∀ g ∈ pre, g ≠ 0) :
      Dumped (pre ++ List.replicate zeros 0) false (joined (pre.map hexadecimal))
  | compressed {pre post : List Nat} {zeros : Nat} (hzeros : 0 < zeros) (hpost : post ≠ []) :
      Dumped (pre ++ List.replicate zeros 0 ++ post) true
        (joined (pre.map hexadecimal) ++ [colon, colon] ++ joined (post.map hexadecimal))

theorem joined_append_singleton {texts : List Bytes} {text : Bytes} (h : texts ≠ []) :
    joined (texts ++ [text]) = joined texts ++ colon :: text := by
  induction texts with
  | nil => exact absurd rfl h
  | cons first texts ih =>
    rw [List.cons_append, joined_cons (List.append_ne_nil_of_right_ne_nil _ (List.cons_ne_nil _ _))]
    by_cases hlast : texts = []
    · rw [hlast, joined_singleton, List.nil_append, joined_singleton]
    · rw [ih hlast, joined_cons hlast, List.append_assoc]
      rfl

section

variable {addr : Vector UInt8 28} {i : Nat} {text t : Bytes} {used : Bool} {gs : List Nat}

theorem dumpGroup_zero (h : word addr i = 0) (os : Ostream) :
    dumpGroup addr (os, false) i = (os, false) := if_pos ⟨h, rfl⟩

theorem dumpGroup_first (h : word addr 0 ≠ 0) :
    dumpGroup addr (⟨text, .dec⟩, used) 0 = (⟨text ++ hexadecimal (group addr 0), .dec⟩, used) := by
  rw [dumpGroup, if_neg fun hz => h hz.1]
  rfl

/-- A group behind one that has been written. -/
theorem dumpGroup_next (hi : i ≠ 0) (h : ¬ (word addr i = 0 ∧ used = false))
    (hprev : ¬ (word addr (i - 1) = 0 ∧ used = false)) :
    dumpGroup addr (⟨text, .dec⟩, used) i =
      (⟨text ++ colon :: hexadecimal (group addr i), .dec⟩, used) := by
  rw [dumpGroup, if_neg h]
  simp only [if_pos hi, if_neg fun hz : _ ∧ _ ∧ _ => hprev hz.2]
  show (Ostream.mk (text ++ [colon] ++ hexadecimal (group addr i)) .dec, used) = _
  rw [List.append_assoc]
  rfl

/-- The first group behind the zeros. -/
theorem dumpGroup_double (hi : i ≠ 0) (h : word addr i ≠ 0) (hprev : word addr (i - 1) = 0) :
    dumpGroup addr (⟨text, .dec⟩, false) i =
      (⟨text ++ [colon, colon] ++ hexadecimal (group addr i), .dec⟩, true) := by
  have hall : i ≠ 0 ∧ word addr (i - 1) = 0 ∧ True := ⟨hi, hprev, trivial⟩
  rw [dumpGroup, if_neg fun hz => h hz.1]
  simp only [if_pos hi, if_pos hall]
  show (Ostream.mk (text ++ [colon] ++ [colon] ++ hexadecimal (group addr i)) .dec, true) = _
  rw [List.append_assoc text [colon]]
  rfl

theorem Dumped.zero (h : Dumped gs false t) : Dumped (gs ++ [0]) false t := by
  cases h with
  | @pending pre zeros hpre =>
    rw [List.append_assoc, ← List.replicate_succ']
    exact .pending (zeros + 1) hpre

/-- Behind the `::` every group is written. -/
theorem Dumped.behind (g : Nat) (h : Dumped gs true t) :
    Dumped (gs ++ [g]) true (t ++ colon :: hexadecimal g) := by
  cases h with
  | @compressed pre post zeros hzeros hpost =>
    have hdumped : Dumped (pre ++ List.replicate zeros 0 ++ (post ++ [g])) true _ :=
      .compressed hzeros (by simp)
    rwa [List.map_append, List.map_singleton, joined_append_singleton (by simpa using hpost),
      ← List.append_assoc, ← List.append_assoc] at hdumped

/-- The first group behind the zeros. -/
theorem Dumped.double (g : Nat) (h : Dumped gs false t) (hlast : gs.getLast? = some 0) :
    Dumped (gs ++ [g]) true (t ++ [colon, colon] ++ hexadecimal g) := by
  cases h with
  | @pending pre zeros hpre =>
    -- the last group is zero, so that some are pending
    have hzeros : 0 < zeros := by
      refine Nat.pos_of_ne_zero ?_
      rintro rfl
      rw [List.replicate_zero, List.append_nil] at hlast
      exact hpre 0 (List.mem_of_getLast? hlast) rfl
    have hdumped : Dumped (pre ++ List.replicate zeros 0 ++ [g]) true _ :=
      .compressed hzeros (by simp)
    rwa [List.map_singleton, joined_singleton] at hdumped

/-- A group in front of all zeros. -/
theorem Dumped.front {g : Nat} (h : Dumped gs false t) (hlast : gs.getLast? ≠ some 0) (hg : g ≠ 0) :
    Dumped (gs ++ [g]) false
      (if gs = [] then t ++ hexadecimal g else t ++ colon :: hexadecimal g) := by
  cases h with
  | @pending pre zeros hpre =>
    obtain rfl : zeros = 0 := by
      by_contra hzeros
      refine hlast ?_
      rw [List.getLast?_append_of_ne_nil _ (by simpa using hzeros), List.getLast?_replicate,
        if_neg hzeros]
    rw [List.replicate_zero, List.append_nil]
    have hall : ∀ d ∈ pre ++ [g], d ≠ 0 := by
      intro d hd
      rcases List.mem_append.mp hd with hd | hd
      · exact hpre d hd
      · rwa [List.mem_singleton.mp hd]
    have hdumped := Dumped.pending 0 hall
    rw [List.replicate_zero, List.append_nil, List.map_append, List.map_singleton] at hdumped
    split
    · subst pre
      rwa [List.map_nil, List.nil_append [hexadecimal g], joined_singleton] at hdumped
    · rwa [joined_append_singleton (by simpa)] at hdumped

theorem Dumped.ne_nil (h : Dumped gs true t) : gs ≠ [] := by
  cases h with
  | compressed hzeros hpost => exact List.append_ne_nil_of_right_ne_nil _ hpost

/-- One round of the loop writes what the group adds to the text. -/
theorem Dumped.step (h : Dumped ((List.range i).map (group addr)) used t) (text : Bytes) :
    ∃ t' used', dumpGroup addr (⟨text ++ t, .dec⟩, used) i = (⟨text ++ t', .dec⟩, used') ∧
      Dumped ((List.range (i + 1)).map (group addr)) used' t' := by
  have hnil : (List.range i).map (group addr) = [] ↔ i = 0 := by simp
  rw [List.range_succ, List.map_append, List.map_singleton]
  cases used with
  | true =>
    -- the zeros have been written, and every group is
    refine ⟨_, true, ?_, h.behind _⟩
    rw [dumpGroup_next (mt hnil.mpr h.ne_nil) (by simp) (by simp), List.append_assoc]
  | false =>
    by_cases hz : word addr i = 0
    · -- one more zero to come
      refine ⟨t, false, dumpGroup_zero hz _, ?_⟩
      rw [group_eq_zero.mpr hz]
      exact h.zero
    · have hg : group addr i ≠ 0 := mt group_eq_zero.mp hz
      -- the group is not zero: what stands in front of it decides about the colons
      by_cases hi : i = 0
      · subst hi
        have hfirst := h.front (by simp) hg
        rw [if_pos (hnil.mpr rfl)] at hfirst
        exact ⟨_, false, by rw [dumpGroup_first hz, List.append_assoc], hfirst⟩
      · by_cases hprev : word addr (i - 1) = 0
        · refine ⟨_, true, ?_, h.double _ ?_⟩
          · rw [dumpGroup_double hi hz hprev, List.append_assoc, List.append_assoc,
              List.append_assoc]
          · rw [group_before hi, group_eq_zero.mpr hprev]
        · have hnext := h.front (g := group addr i) (by
            rw [group_before hi]
            exact fun hlast => hprev (group_eq_zero.mp (Option.some.inj hlast))) hg
          rw [if_neg (mt hnil.mp hi)] at hnext
          refine ⟨_, false, ?_, hnext⟩
          rw [dumpGroup_next hi (fun h => hz h.1) (fun h => hprev h.1), List.append_assoc]

/-- The loop over the first groups. -/
theorem dumped_loop (addr : Vector UInt8 28) (text : Bytes) (n : Nat) :
    ∃ t used, (List.range n).foldl (dumpGroup addr) (⟨text, .dec⟩, false) =
      (⟨text ++ t, .dec⟩, used) ∧ Dumped ((List.range n).map (group addr)) used t := by
  induction n with
  | zero => exact ⟨[], false, by rw [List.append_nil]; rfl, .pending 0 (List.forall_mem_nil _)⟩
  | succ n ih =>
    obtain ⟨t, used, hloop, hdumped⟩ := ih
    obtain ⟨t', used', hstep, hdumped'⟩ := hdumped.step text
    refine ⟨t', used', ?_, hdumped'⟩
    rw [List.range_succ, List.foldl_append, hloop]
    exact hstep

/-- What stands in the brackets when the loop is done. -/
theorem Dumped.literal (h : Dumped gs used t) (hlen : gs.length = 8) (hlt : ∀ g ∈ gs, g < 65536) :
    Literal (if used = false ∧ gs.getLast? = some 0 then t ++ [colon, colon] else t) gs := by
  cases h with
  | @pending pre zeros hpre =>
    have hgroups := isGroup_map fun g hg => hlt g (List.mem_append_left _ hg)
    rcases Nat.eq_zero_or_pos zeros with rfl | hzeros
    · -- no group is zero
      rw [List.replicate_zero, List.append_nil] at hlen ⊢
      rw [if_neg fun hlast => hpre 0 (List.mem_of_getLast? hlast.2) rfl]
      exact .full hgroups hlen
    · -- the zeros at the end are written behind the loop
      rw [List.length_append, List.length_replicate] at hlen
      rw [if_pos ⟨rfl, by rw [List.getLast?_append_of_ne_nil _ (by simpa using hzeros.ne'),
        List.getLast?_replicate, if_neg hzeros.ne']⟩]
      have hliteral := Literal.compressed hgroups .nil hzeros (by rw [List.length_nil]; exact hlen)
      rwa [joined_nil, List.append_nil, List.append_nil] at hliteral
  | @compressed pre post zeros hzeros hpost =>
    rw [if_neg fun h => Bool.noConfusion h.1]
    refine .compressed (isGroup_map fun g hg => hlt g ?_) (isGroup_map fun g hg => hlt g ?_) hzeros
      ?_
    · exact List.mem_append_left _ (List.mem_append_left _ hg)
    · exact List.mem_append_right _ hg
    · rwa [List.length_append, List.length_append, List.length_replicate] at hlen

end

/-! ## The text -/

/-- What is in the brackets is a literal that stands for the address. -/
structure StandsFor (addr : Vector UInt8 28) (t : Bytes) : Prop where
  literal : Literal t (groups addr)
  double : doubleColons t ≤ 1
  reads : inetPton6 t = some (s6Addr addr)
  creates : ∃ r, create t (getPort addr) = some r ∧ s6Addr r = s6Addr addr ∧
    getPort r = getPort addr

theorem dump_eq (addr : Vector UInt8 28) (text : Bytes) :
    ∃ t, dump addr ⟨text, .dec⟩ = ⟨text ++ ascii "[" ++ t ++ ascii "]:" ++
      Http.decimal (getPort addr).toNat, .dec⟩ ∧ Literal t (groups addr) := by
  obtain ⟨t, used, hloop, hdumped⟩ := dumped_loop addr (text ++ ascii "[") 8
  have hlast : ((List.range 8).map (group addr)).getLast? = some 0 ↔ word addr 7 = 0 := by
    rw [group_before (by decide), Option.some.injEq, group_eq_zero]
  have hliteral := hdumped.literal (by rw [List.length_map, List.length_range]) (by
    intro g hg
    obtain ⟨i, -, rfl⟩ := List.mem_map.mp hg
    exact group_lt)
  simp only [hlast] at hliteral
  refine ⟨_, ?_, hliteral⟩
  have hfold : (List.range 8).foldl (dumpGroup addr) (Ostream.put ⟨text, .dec⟩ (ascii "["), false) =
      (⟨text ++ ascii "[" ++ t, .dec⟩, used) := hloop
  simp only [dump, hfold]
  split
  · show Ostream.mk (text ++ ascii "[" ++ t ++ ascii "::" ++ ascii "]:" ++ _) _ = _
    rw [List.append_assoc (text ++ ascii "[") t]
    rfl
  · rfl

theorem toList_ofFn_getD {n : Nat} {l : Bytes} (h : l.length = n) :
    (Vector.ofFn (n := n) fun i => l.getD i 0).toList = l := by
  refine List.ext_getElem (by rw [Vector.length_toList, h]) fun i h₁ h₂ => ?_
  rw [Vector.getElem_toList, Vector.getElem_ofFn, List.getD_eq_getElem _ _ h₂]

/-- The bytes of `make`. -/
theorem toList_make {address : Bytes} (h : address.length = 16) (port : BitVec (8 * 2)) :
    (make address port).toList = toBytes 2 (BitVec.ofNat _ Address.afInet6) ++
      toBytes 2 (byteSwap 2 port) ++ toBytes 4 0 ++ address ++ toBytes 4 0 :=
  toList_ofFn_getD (by simp only [List.length_append, length_toBytes, h])

theorem s6Addr_make {address : Bytes} (h : address.length = 16) (port : BitVec (8 * 2)) :
    s6Addr (make address port) = address := by
  rw [s6Addr, toList_make h, List.append_assoc, List.drop_left' (by simp), List.take_left' h]

theorem getPort_make {address : Bytes} (h : address.length = 16) (port : BitVec (8 * 2)) :
    getPort (make address port) = port := by
  have hbytes : IPv6Address.port (make address port) = toBytes 2 (byteSwap 2 port) := by
    rw [IPv6Address.port, toList_make h, List.append_assoc, List.append_assoc, List.append_assoc,
      List.drop_left' (by simp), List.take_left' (by simp)]
  rw [getPort, hbytes, ofBytes_toBytes, BitVec.ofNat_toNat, BitVec.setWidth_eq, byteSwap_byteSwap]

/-- **`dump` writes a literal in brackets and the port, and the literal is read back as the
address.** -/
theorem dump_literal (addr : Vector UInt8 28) (text : Bytes) :
    ∃ t, dump addr ⟨text, .dec⟩ = ⟨text ++ ascii "[" ++ t ++ ascii "]:" ++
      Http.decimal (getPort addr).toNat, .dec⟩ ∧ StandsFor addr t := by
  obtain ⟨t, hdump, hliteral⟩ := dump_eq addr text
  -- what is left is about literals
  have hreads : inetPton6 t = some (s6Addr addr) := by
    rw [inetPton6_of_literal hliteral, flatMap_groups]
  have hlen : (s6Addr addr).length = 16 := by simp [s6Addr]
  refine ⟨t, hdump, hliteral, doubleColons_le hliteral, hreads, ?_⟩
  exact ⟨_, by rw [create, hreads]; rfl, s6Addr_make hlen _, getPort_make hlen _⟩

end IPv6Address

end Luwu
