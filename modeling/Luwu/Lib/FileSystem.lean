import Mathlib.Data.List.Induction
import Mathlib.Data.List.Nodup
import Luwu.Lib.Bytes

/-!
# File systems

A file system as the list of its files, and the calls that look at directories or remove files.  A
path is the list of its names; the names in front of the last one are those of directories, so that
only the file itself may be a symbolic link.  What a call may do depends on the permissions and on
the caller; besides, the system may refuse it for a reason of its own.
-/

namespace Luwu.Lib.Posix

/-! ## Files -/

abbrev Path := List Bytes

inductive FileType where
  | regular
  | directory
  | symlink (target : Path)
  | fifo
  | socket
  | blockDevice
  | charDevice
deriving DecidableEq

/-- The type in `st_mode`. -/
def FileType.bits : FileType → BitVec 32
  | regular => 0o100000
  | directory => 0o040000
  | symlink _ => 0o120000
  | fifo => 0o010000
  | socket => 0o140000
  | blockDevice => 0o060000
  | charDevice => 0o020000

structure Inode where
  type : FileType
  permissions : BitVec 12
deriving DecidableEq

def Inode.stMode (i : Inode) : BitVec 32 := i.type.bits ||| i.permissions.setWidth 32

abbrev Files := List (Path × Inode)

/-! ## Callers -/

/-- Which of the permissions of a file apply. -/
inductive Role where
  | owner
  | group
  | other
deriving DecidableEq

/-- Where these permissions begin. -/
def Role.shift : Role → Nat
  | owner => 6
  | group => 3
  | other => 0

inductive Call where
  | lstat
  | opendir
  | unlink
  | rmdir
deriving DecidableEq

/-- Whether permissions are checked for a caller, the role it has for a file, and the calls that the
system refuses it all the same: the path is too long, too many files are open, the file is busy. -/
structure Caller where
  superuser : Bool
  role : Path → Role
  refuses : Call → Path → Bool

def mayRead : BitVec 12 := 4

def mayWrite : BitVec 12 := 2

def maySearch : BitVec 12 := 1

/-- `S_ISVTX`. -/
def sticky : BitVec 12 := 0o1000

section

variable (c : Caller) (fs : Files) (p : Path)

/-- The permissions of the file grant the caller what is asked for. -/
def Caller.Allows (asked : BitVec 12) (e : Path × Inode) : Prop :=
  c.superuser = true ∨ (e.2.permissions >>> (c.role e.1).shift) &&& asked = asked

instance (asked : BitVec 12) (e : Path × Inode) : Decidable (c.Allows asked e) :=
  inferInstanceAs (Decidable (_ ∨ _))

/-- The caller may search the directories on the way to `p`. -/
def Caller.Reaches : Prop := ∀ e ∈ fs, e.1 <+: p → e.1 ≠ p → c.Allows maySearch e

instance : Decidable (c.Reaches fs p) := inferInstanceAs (Decidable (∀ e ∈ fs, _))

/-- The caller may take `p` out of its directory: it may write there and, if only owners may remove
files, it owns the file or the directory. -/
def Caller.Unlinks : Prop :=
  p ≠ [] ∧ ∀ e ∈ fs, e.1 = p.dropLast → c.Allows mayWrite e ∧
    (e.2.permissions &&& sticky = 0 ∨ c.superuser = true ∨ c.role p = .owner ∨
      c.role e.1 = .owner)

instance : Decidable (c.Unlinks fs p) :=
  inferInstanceAs (Decidable (_ ∧ ∀ e ∈ fs, _))

/-! ## Calls -/

/-- The system lets the caller get at `p`. -/
def Caller.Admitted (call : Call) : Prop := c.Reaches fs p ∧ c.refuses call p = false

instance (call : Call) : Decidable (c.Admitted fs p call) := inferInstanceAs (Decidable (_ ∧ _))

def lookup : Option Inode := (fs.find? (·.1 = p)).map Prod.snd

/-- `lstat`: `st_mode`, if there is the file. -/
def lstat : Option (BitVec 32) :=
  if c.Admitted fs p .lstat then (lookup fs p).map Inode.stMode else none

/-- The names in a directory. -/
def names : List Bytes := fs.filterMap fun e => if e.1.dropLast = p then e.1.getLast? else none

/-- `opendir`, which follows so many links, and what `readdir` then returns. -/
def opendir : Nat → Path → Option (List Bytes)
  | links, p =>
    if c.Admitted fs p .opendir then
      match lookup fs p with
      | some ⟨.directory, permissions⟩ =>
        if c.Allows mayRead (p, ⟨.directory, permissions⟩) then
          some (ascii "." :: ascii ".." :: names fs p)
        else none
      | some ⟨.symlink target, _⟩ =>
        match links with
        | 0 => none
        | links + 1 => opendir links target
      | _ => none
    else none

def remove : Files := fs.filter (·.1 ≠ p)

/-- `unlink`, for a file that is no directory. -/
def unlink : Bool × Files :=
  match lookup fs p with
  | some i =>
    if i.type ≠ .directory ∧ c.Admitted fs p .unlink ∧ c.Unlinks fs p then (true, remove fs p)
    else (false, fs)
  | none => (false, fs)

/-- `rmdir`, for an empty directory. -/
def rmdir : Bool × Files :=
  match lookup fs p with
  | some i =>
    if (i.type = .directory ∧ names fs p = []) ∧ c.Admitted fs p .rmdir ∧ c.Unlinks fs p then
      (true, remove fs p)
    else (false, fs)
  | none => (false, fs)

end

/-! ## Well-formed file systems -/

/-- Every file has its own path, in a directory, and no name is one of the two special ones. -/
structure WellFormed (fs : Files) : Prop where
  distinct : (fs.map Prod.fst).Nodup
  parents : ∀ p n i, (p ++ [n], i) ∈ fs → ∃ j, (p, j) ∈ fs ∧ j.type = .directory
  plain : ∀ p n i, (p ++ [n], i) ∈ fs → n ≠ ascii "." ∧ n ≠ ascii ".."

structure FileSystem where
  files : Files
  wellFormed : WellFormed files

section

variable {fs : Files} {p : Path} {i j : Inode}

theorem WellFormed.unique (h : WellFormed fs) (hi : (p, i) ∈ fs) (hj : (p, j) ∈ fs) : i = j := by
  have hsame : (p, i) = (p, j) := List.inj_on_of_nodup_map h.distinct hi hj rfl
  exact congrArg Prod.snd hsame

theorem lookup_eq_none : lookup fs p = none ↔ ∀ e ∈ fs, e.1 ≠ p := by
  rw [lookup, Option.map_eq_none_iff, List.find?_eq_none]
  simp

theorem WellFormed.lookup_eq_some (h : WellFormed fs) : lookup fs p = some i ↔ (p, i) ∈ fs := by
  constructor
  · intro hlookup
    obtain ⟨e, he, rfl⟩ := Option.map_eq_some_iff.mp hlookup
    have hp : e.1 = p := by simpa using List.find?_some he
    rw [← hp]
    exact List.mem_of_find?_eq_some he
  · intro hmem
    cases hlookup : lookup fs p with
    | none => exact absurd rfl (lookup_eq_none.mp hlookup _ hmem)
    | some j =>
      obtain ⟨e, he, rfl⟩ := Option.map_eq_some_iff.mp hlookup
      have hp : e.1 = p := by simpa using List.find?_some he
      have hmem' := List.mem_of_find?_eq_some he
      rw [h.unique hmem (show (p, e.2) ∈ fs by rw [← hp]; exact hmem')]

theorem mem_names {n : Bytes} : n ∈ names fs p ↔ ∃ i, (p ++ [n], i) ∈ fs := by
  rw [names, List.mem_filterMap]
  constructor
  · rintro ⟨⟨q, i⟩, hmem, hq⟩
    dsimp only at hq
    split at hq
    · next hdir =>
      obtain ⟨a, rfl⟩ := List.getLast?_eq_some_iff.mp hq
      rw [List.dropLast_concat] at hdir
      exact ⟨i, hdir ▸ hmem⟩
    · cases hq
  · rintro ⟨i, hmem⟩
    exact ⟨(p ++ [n], i), hmem, by simp⟩

/-- What contains a file is a directory. -/
theorem WellFormed.ancestor (h : WellFormed fs) {r : Path} (hr : r ≠ []) (hmem : (p ++ r, i) ∈ fs) :
    ∃ j, (p, j) ∈ fs ∧ j.type = .directory := by
  induction r using List.reverseRecOn generalizing i with
  | nil => exact absurd rfl hr
  | append_singleton r n ih =>
    rw [← List.append_assoc] at hmem
    obtain ⟨j, hj, hdir⟩ := h.parents _ _ _ hmem
    cases r with
    | nil => exact ⟨j, by rwa [List.append_nil] at hj, hdir⟩
    | cons m r => exact ih (List.cons_ne_nil m r) hj

/-- A file below a directory is one of its entries or below one of them. -/
theorem WellFormed.entry (h : WellFormed fs) {n : Bytes} {r : Path} (hmem : (p ++ n :: r, i) ∈ fs) :
    n ∈ names fs p := by
  rw [mem_names]
  cases r with
  | nil => exact ⟨i, hmem⟩
  | cons m r =>
    obtain ⟨j, hj, -⟩ := h.ancestor (p := p ++ [n]) (List.cons_ne_nil m r)
      (by rwa [List.append_assoc] )
    exact ⟨j, hj⟩

/-- There is nothing below a file that is no directory. -/
theorem WellFormed.below_file (h : WellFormed fs) (hmem : (p, i) ∈ fs) (hdir : i.type ≠ .directory)
    {e : Path × Inode} (he : e ∈ fs) (hp : p <+: e.1) : e = (p, i) := by
  obtain ⟨q, j⟩ := e
  obtain ⟨r, rfl⟩ := hp
  cases r with
  | nil =>
    rw [List.append_nil] at he ⊢
    rw [h.unique he hmem]
  | cons n r =>
    obtain ⟨j', hj', hdir'⟩ := h.ancestor (List.cons_ne_nil n r) he
    rw [h.unique hmem hj'] at hdir
    exact absurd hdir' hdir

/-- Below a directory there are its entries and what is below them. -/
theorem WellFormed.below_cases (h : WellFormed fs) {e : Path × Inode} (he : e ∈ fs)
    (hp : p <+: e.1) : e.1 = p ∨ ∃ n ∈ names fs p, p ++ [n] <+: e.1 := by
  obtain ⟨q, i⟩ := e
  obtain ⟨r, rfl⟩ := hp
  cases r with
  | nil => exact .inl (List.append_nil p)
  | cons n r =>
    refine .inr ⟨n, h.entry he, r, ?_⟩
    rw [List.append_assoc]
    rfl

/-- The conditions, as they are checked file by file. -/
theorem wellFormed_of (hdistinct : (fs.map Prod.fst).Nodup)
    (hparents : ∀ e ∈ fs, e.1 = [] ∨ ∃ d ∈ fs, d.1 = e.1.dropLast ∧ d.2.type = .directory)
    (hplain : ∀ e ∈ fs, e.1.getLast? ≠ some (ascii ".") ∧ e.1.getLast? ≠ some (ascii "..")) :
    WellFormed fs := by
  constructor
  case distinct => exact hdistinct
  case parents =>
    intro p n i hmem
    rcases hparents _ hmem with hnil | ⟨⟨q, j⟩, hj, hq, hdir⟩
    · exact absurd hnil (List.append_ne_nil_of_right_ne_nil p (List.cons_ne_nil n []))
    · rw [List.dropLast_concat] at hq
      exact ⟨j, hq ▸ hj, hdir⟩
  case plain =>
    intro p n i hmem
    have hn := hplain _ hmem
    rw [List.getLast?_concat] at hn
    exact ⟨fun h => hn.1 (congrArg some h), fun h => hn.2 (congrArg some h)⟩

/-- Files may be left out as long as the directories of those that stay are kept. -/
theorem WellFormed.filter (h : WellFormed fs) (keep : Path → Bool)
    (hkeep : ∀ p n i, (p ++ [n], i) ∈ fs → keep (p ++ [n]) = true → keep p = true) :
    WellFormed (fs.filter fun e => keep e.1) := by
  constructor
  case distinct => exact h.distinct.sublist (List.filter_sublist.map _)
  case parents =>
    intro p n i hmem
    obtain ⟨hin, hk⟩ := List.mem_filter.mp hmem
    obtain ⟨j, hj, hdir⟩ := h.parents p n i hin
    exact ⟨j, List.mem_filter.mpr ⟨hj, hkeep p n i hin hk⟩, hdir⟩
  case plain =>
    intro p n i hmem
    exact h.plain p n i (List.mem_of_mem_filter hmem)

/-- A file without entries may be removed. -/
theorem WellFormed.remove (h : WellFormed fs) (hempty : names fs p = []) :
    WellFormed (remove fs p) := by
  apply h.filter fun q => decide (q ≠ p)
  intro q n i hmem _
  rw [decide_eq_true_eq]
  rintro rfl
  have hn := mem_names.mpr ⟨i, hmem⟩
  rw [hempty] at hn
  cases hn

theorem WellFormed.names_file (h : WellFormed fs) (hmem : (p, i) ∈ fs)
    (hdir : i.type ≠ .directory) : names fs p = [] := by
  rw [List.eq_nil_iff_forall_not_mem]
  intro n hn
  obtain ⟨j, hj⟩ := mem_names.mp hn
  have hself := congrArg Prod.fst (h.below_file hmem hdir hj (List.prefix_append p [n]))
  simp at hself

/-! ### Files that have been removed -/

variable {fs' : Files} {c : Caller}

/-- A part of the files has what leads to its files. -/
theorem WellFormed.mem_of_prefix (h : WellFormed fs) (h' : WellFormed fs') (hsub : fs' ⊆ fs)
    (hmem : (p, i) ∈ fs') {e : Path × Inode} (he : e ∈ fs) (hp : e.1 <+: p) : e ∈ fs' := by
  obtain ⟨q, k⟩ := e
  obtain ⟨r, rfl⟩ := hp
  cases r with
  | nil =>
    dsimp only at hmem
    rw [List.append_nil] at hmem
    rwa [h.unique he (hsub hmem)]
  | cons n r =>
    obtain ⟨j, hj, -⟩ := h'.ancestor (List.cons_ne_nil n r) hmem
    rwa [h.unique he (hsub hj)]

/-- What the caller may do with a file does not depend on the others. -/
theorem reaches_iff (h : WellFormed fs) (h' : WellFormed fs') (hsub : fs' ⊆ fs)
    (hmem : (p, i) ∈ fs') : c.Reaches fs' p ↔ c.Reaches fs p := by
  constructor
  · exact fun hreach e he hp => hreach e (h.mem_of_prefix h' hsub hmem he hp) hp
  · exact fun hreach e he => hreach e (hsub he)

theorem admitted_iff (h : WellFormed fs) (h' : WellFormed fs') (hsub : fs' ⊆ fs)
    (hmem : (p, i) ∈ fs') (call : Call) : c.Admitted fs' p call ↔ c.Admitted fs p call :=
  and_congr_left fun _ => reaches_iff h h' hsub hmem

theorem unlinks_iff (h : WellFormed fs) (h' : WellFormed fs') (hsub : fs' ⊆ fs)
    (hmem : (p, i) ∈ fs') : c.Unlinks fs' p ↔ c.Unlinks fs p := by
  refine and_congr_right fun _ => ⟨fun hall e he hp => ?_, fun hall e he => hall e (hsub he)⟩
  exact hall e (h.mem_of_prefix h' hsub hmem he (hp ▸ List.dropLast_prefix p)) hp

end

end Luwu.Lib.Posix
