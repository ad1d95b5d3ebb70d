import Luwu.Lib.FileSystem

/-!
# Removing a file tree

`FSUtil::Rm` tells directories from other files by a bit of `st_mode`, which the types of sockets
and block devices have as well.
-/

namespace Luwu.FSUtil

open Lib.Posix

/-! ## The code -/

/-- `S_IFDIR`. -/
def sIfdir : BitVec 32 := 0o040000

/-- `Unlink (filename)`, whose parameter `exist` is `false`. -/
def unlink (c : Caller) (fs : Files) (filename : Path) : Bool × Files :=
  if lstat c fs filename = none then (true, fs) else Lib.Posix.unlink c fs filename

/-- The loop over the directory: the result is that of the last entry. -/
def rmLoop (rm : Files → Path → Option (Bool × Files)) (path : Path) :
    List Bytes → Bool → Files → Option (Bool × Files)
  | [], ret, fs => some (ret, fs)
  | name :: names, ret, fs =>
    if name = ascii "." ∨ name = ascii ".." then rmLoop rm path names ret fs
    else (rm fs (path ++ [name])).bind fun s => rmLoop rm path names s.1 s.2

/-- `Rm`, for trees of at most so many levels.  `opendir` follows `links` links. -/
def rm (c : Caller) (links : Nat) : Nat → Files → Path → Option (Bool × Files)
  | 0, _, _ => none
  | levels + 1, fs, path =>
    match lstat c fs path with
    | none => some (true, fs)
    | some mode =>
      if mode &&& sIfdir = 0 then some (unlink c fs path)
      else
        match opendir c fs links path with
        | none => some (false, fs)
        | some entries =>
          (rmLoop (rm c links levels) path entries true fs).map fun s =>
            let r := rmdir c s.2 path
            (if r.1 then s.1 else false, r.2)

/-! ## Files that `Rm` removes -/

/-- The types other than a directory that have its bit. -/
def Obstacle (t : FileType) : Prop := t = .socket ∨ t = .blockDevice

instance (t : FileType) : Decidable (Obstacle t) := inferInstanceAs (Decidable (_ ∨ _))

theorem Obstacle.ne_directory {t : FileType} (h : Obstacle t) : t ≠ .directory := by
  rintro rfl
  rcases h with h | h
  · cases h
  · cases h

/-- The caller may look at the file, list it if it is a directory, and take it out of the directory
it is in; and it is no obstacle. -/
structure Removable (c : Caller) (fs : Files) (e : Path × Inode) : Prop where
  seen : c.Admitted fs e.1 .lstat
  type : ¬ Obstacle e.2.type
  listed : e.2.type = .directory → c.Admitted fs e.1 .opendir ∧ c.Allows mayRead e
  removed : c.Admitted fs e.1 (if e.2.type = .directory then .rmdir else .unlink) ∧
    c.Unlinks fs e.1

section

variable {c : Caller} {fs fs' : Files} {p q : Path} {i : Inode}

/-- The permissions do not matter. -/
theorem stMode_and (i : Inode) : i.stMode &&& sIfdir = i.type.bits &&& sIfdir := by
  have hbit : ∀ k < 12, sIfdir.getLsbD k = false := by decide
  refine BitVec.eq_of_getLsbD_eq fun k hk => ?_
  rw [Inode.stMode, BitVec.getLsbD_and, BitVec.getLsbD_and, BitVec.getLsbD_or,
    BitVec.getLsbD_setWidth]
  by_cases hlow : k < 12
  · rw [hbit k hlow, Bool.and_false, Bool.and_false]
  · rw [BitVec.getLsbD_of_ge i.permissions k (by omega), Bool.and_false, Bool.or_false]

/-- The bit is that of directories and obstacles. -/
theorem stMode_and_eq_zero_iff (i : Inode) :
    i.stMode &&& sIfdir = 0 ↔ i.type ≠ .directory ∧ ¬ Obstacle i.type := by
  rw [stMode_and]
  cases i.type with
  | symlink target =>
    have hbits : (FileType.symlink target).bits &&& sIfdir = 0 := by
      show 0o120000#32 &&& sIfdir = 0
      decide
    exact iff_of_true hbits ⟨nofun, by rintro (h | h) <;> cases h⟩
  | regular => decide
  | directory => decide
  | fifo => decide
  | socket => decide
  | blockDevice => decide
  | charDevice => decide

/-- Whether a file is removable does not depend on the files that have been removed before. -/
theorem removable_iff (h : WellFormed fs) (h' : WellFormed fs') (hsub : fs' ⊆ fs)
    {e : Path × Inode} (he : e ∈ fs') : Removable c fs' e ↔ Removable c fs e := by
  have hadmitted (call : Call) := admitted_iff (c := c) h h' hsub he call
  have hunlinks := unlinks_iff (c := c) h h' hsub he
  constructor
  · rintro ⟨hseen, htype, hlisted, hremoved⟩
    rw [hadmitted] at hseen hremoved
    rw [hadmitted] at hlisted
    rw [hunlinks] at hremoved
    exact ⟨hseen, htype, hlisted, hremoved⟩
  · rintro ⟨hseen, htype, hlisted, hremoved⟩
    rw [← hadmitted] at hseen hremoved
    rw [← hadmitted] at hlisted
    rw [← hunlinks] at hremoved
    exact ⟨hseen, htype, hlisted, hremoved⟩

/-! ## What the calls return -/

theorem lstat_eq_some {mode : BitVec 32} : lstat c fs p = some mode ↔
    c.Admitted fs p .lstat ∧ ∃ i, lookup fs p = some i ∧ i.stMode = mode := by
  rw [lstat]
  split
  · next hseen => rw [Option.map_eq_some_iff, and_iff_right hseen]
  · next hseen => exact iff_of_false nofun fun h => hseen h.1

/-- Of the files with the bit only directories can be opened. -/
theorem opendir_eq_some (hlookup : lookup fs p = some i) (hbit : i.stMode &&& sIfdir ≠ 0)
    {links : Nat} {entries : List Bytes} : opendir c fs links p = some entries ↔
      i.type = .directory ∧ (c.Admitted fs p .opendir ∧ c.Allows mayRead (p, i)) ∧
        entries = ascii "." :: ascii ".." :: names fs p := by
  have htype : i.type = .directory ∨ Obstacle i.type := by
    by_contra hno
    exact hbit ((stMode_and_eq_zero_iff i).mpr (not_or.mp hno))
  obtain ⟨type, permissions⟩ := i
  rw [opendir.eq_def]
  dsimp only
  rw [hlookup]
  by_cases hopen : c.Admitted fs p .opendir
  · rw [if_pos hopen, and_iff_right hopen]
    rcases htype with rfl | hob
    · dsimp only
      split
      · next hread => simp [hread, eq_comm]
      · next hread => simp [hread]
    · have hne := hob.ne_directory
      rcases hob with rfl | rfl
      · exact iff_of_false nofun fun h => hne h.1
      · exact iff_of_false nofun fun h => hne h.1
  · rw [if_neg hopen]
    exact iff_of_false nofun fun h => hopen h.2.1.1

/-! ## Nothing but removable files is removed -/

/-- From `fs` to `fs'` some removable files at `p` or below have been removed. -/
structure Cleared (c : Caller) (p : Path) (fs fs' : Files) : Prop where
  wellFormed : WellFormed fs'
  subset : fs' ⊆ fs
  removed : ∀ e ∈ fs, e ∉ fs' → p <+: e.1 ∧ Removable c fs e

theorem Cleared.refl (h : WellFormed fs) : Cleared c p fs fs :=
  ⟨h, List.Subset.refl fs, fun _ he hno => absurd he hno⟩

theorem Cleared.trans {fs₁ fs₂ : Files} (hwf : WellFormed fs) (h : Cleared c p fs fs₁)
    (h' : Cleared c p fs₁ fs₂) : Cleared c p fs fs₂ := by
  refine ⟨h'.wellFormed, List.Subset.trans h'.subset h.subset, fun e he hno => ?_⟩
  by_cases he₁ : e ∈ fs₁
  · obtain ⟨hp, hremovable⟩ := h'.removed e he₁ hno
    exact ⟨hp, (removable_iff hwf h.wellFormed h.subset he₁).mp hremovable⟩
  · exact h.removed e he he₁

theorem Cleared.mono (h : Cleared c q fs fs') (hp : p <+: q) : Cleared c p fs fs' :=
  ⟨h.wellFormed, h.subset, fun e he hno =>
    ⟨hp.trans (h.removed e he hno).1, (h.removed e he hno).2⟩⟩

theorem Cleared.remove (h : WellFormed fs) (hmem : (p, i) ∈ fs) (hempty : names fs p = [])
    (hremovable : Removable c fs (p, i)) : Cleared c p fs (remove fs p) := by
  refine ⟨h.remove hempty, fun e he => List.mem_of_mem_filter he, fun e he hno => ?_⟩
  have hself : e.1 = p := by
    by_contra hne
    exact hno (List.mem_filter.mpr ⟨he, by simpa using hne⟩)
  have heq : e = (p, i) := by
    rw [← h.unique (show (p, e.2) ∈ fs by rw [← hself]; exact he) hmem, ← hself]
  rw [heq]
  exact ⟨List.prefix_rfl, hremovable⟩

/-- `Unlink` of a file whose type lets it be taken for no directory. -/
theorem unlink_cleared (h : WellFormed fs) (hbit : ∀ i, lookup fs p = some i →
    i.stMode &&& sIfdir = 0) : Cleared c p fs (unlink c fs p).2 := by
  rw [unlink]
  split
  · exact .refl h
  · next hlstat =>
    obtain ⟨mode, hmode⟩ := Option.ne_none_iff_exists'.mp hlstat
    obtain ⟨hseen, i, hlookup, -⟩ := lstat_eq_some.mp hmode
    obtain ⟨hdir, hob⟩ := (stMode_and_eq_zero_iff i).mp (hbit i hlookup)
    have hmem := h.lookup_eq_some.mp hlookup
    rw [Lib.Posix.unlink, hlookup]
    dsimp only
    split
    · next hgranted =>
      refine .remove h hmem (h.names_file hmem hdir) ⟨hseen, hob, fun hno => absurd hno hdir, ?_⟩
      rw [if_neg hdir]
      exact hgranted.2
    · exact .refl h

theorem rmLoop_cleared {call : Files → Path → Option (Bool × Files)}
    (hcall : ∀ fs p r, WellFormed fs → call fs p = some r → Cleared c p fs r.2)
    (h : WellFormed fs) {ns : List Bytes} {ret : Bool} {r : Bool × Files}
    (hrun : rmLoop call p ns ret fs = some r) : Cleared c p fs r.2 := by
  induction ns generalizing fs ret with
  | nil =>
    cases hrun
    exact .refl h
  | cons n ns ih =>
    rw [rmLoop] at hrun
    split at hrun
    · exact ih h hrun
    · obtain ⟨s, hs, hrest⟩ := Option.bind_eq_some_iff.mp hrun
      have hfirst := (hcall fs _ s h hs).mono (List.prefix_append p [n])
      exact hfirst.trans h (ih hfirst.wellFormed hrest)

theorem rm_cleared {links levels : Nat} (h : WellFormed fs) {r : Bool × Files}
    (hrun : rm c links levels fs p = some r) : Cleared c p fs r.2 := by
  -- on the levels; the loop makes calls with one less
  induction levels generalizing fs p r with
  | zero => cases hrun
  | succ levels ih =>
    rw [rm] at hrun
    split at hrun
    · cases hrun
      exact .refl h
    · next mode hmode =>
      obtain ⟨hseen, i, hlookup, hmode⟩ := lstat_eq_some.mp hmode
      have hmem := h.lookup_eq_some.mp hlookup
      subst hmode
      split at hrun
      · next hbit =>
        cases hrun
        apply unlink_cleared h
        intro j hj
        rw [hlookup, Option.some_inj] at hj
        exact hj ▸ hbit
      · next hbit =>
        split at hrun
        · cases hrun
          exact .refl h
        · next entries hopen =>
          obtain ⟨hdir, hlisted, -⟩ := (opendir_eq_some hlookup hbit).mp hopen
          obtain ⟨s, hloop, rfl⟩ := Option.map_eq_some_iff.mp hrun
          have hentries := rmLoop_cleared (fun fs p r hwf hr => ih hwf hr) h hloop
          refine hentries.trans h ?_
          dsimp only
          -- the directory is still the same if it is there
          rw [rmdir]
          split
          · next j hj =>
            have hmem' := hentries.wellFormed.lookup_eq_some.mp hj
            obtain rfl : j = i := h.unique (hentries.subset hmem') hmem
            split
            · next hgranted =>
              refine .remove hentries.wellFormed hmem' hgranted.1.2 ?_
              rw [removable_iff h hentries.wellFormed hentries.subset hmem']
              refine ⟨hseen, fun hob => hob.ne_directory hdir, fun _ => hlisted, ?_⟩
              rw [if_pos hdir]
              exact ⟨(admitted_iff h hentries.wellFormed hentries.subset hmem' _).mp hgranted.2.1,
                (unlinks_iff h hentries.wellFormed hentries.subset hmem').mp hgranted.2.2⟩
            · exact .refl hentries.wellFormed
          · exact .refl hentries.wellFormed

/-! ## Removable trees are removed -/

/-- The files outside the tree at `p`. -/
def outside (fs : Files) (p : Path) : Files := fs.filter fun e => decide (¬ p <+: e.1)

/-- The files outside the trees at some entries of `p`. -/
def outsideEntries (fs : Files) (p : Path) (ns : List Bytes) : Files :=
  fs.filter fun e => decide (∀ n ∈ ns, ¬ p ++ [n] <+: e.1)

theorem mem_outside {e : Path × Inode} : e ∈ outside fs p ↔ e ∈ fs ∧ ¬ p <+: e.1 := by
  rw [outside, List.mem_filter, decide_eq_true_eq]

theorem mem_outsideEntries {e : Path × Inode} {ns : List Bytes} :
    e ∈ outsideEntries fs p ns ↔ e ∈ fs ∧ ∀ n ∈ ns, ¬ p ++ [n] <+: e.1 := by
  rw [outsideEntries, List.mem_filter, decide_eq_true_eq]

theorem outsideEntries_outside (fs : Files) (p : Path) (n : Bytes) (ns : List Bytes) :
    outsideEntries (outside fs (p ++ [n])) p ns = outsideEntries fs p (n :: ns) := by
  rw [outsideEntries, outsideEntries, outside, List.filter_filter]
  congr 1
  funext e
  rw [Bool.and_comm, ← Bool.decide_and, decide_eq_decide, List.forall_mem_cons]

theorem wellFormed_outside (h : WellFormed fs) (p : Path) : WellFormed (outside fs p) := by
  apply h.filter fun q => decide (¬ p <+: q)
  intro q n i _ hkeep
  rw [decide_eq_true_eq] at hkeep ⊢
  exact fun hin => hkeep (hin.trans (List.prefix_append q [n]))

theorem wellFormed_outsideEntries (h : WellFormed fs) (p : Path) (ns : List Bytes) :
    WellFormed (outsideEntries fs p ns) := by
  induction ns generalizing fs with
  | nil =>
    have hall : outsideEntries fs p [] = fs := List.filter_eq_self.mpr fun e _ => by simp
    rwa [hall]
  | cons n ns ih =>
    rw [← outsideEntries_outside]
    exact ih (wellFormed_outside h _)

theorem append_not_isPrefix (p : Path) (n : Bytes) : ¬ p ++ [n] <+: p := by
  intro h
  have hle := h.length_le
  rw [List.length_append] at hle
  exact Nat.not_succ_le_self _ hle

/-- A directory is empty when the trees at its entries have been removed. -/
theorem names_outsideEntries (fs : Files) (p : Path) :
    names (outsideEntries fs p (names fs p)) p = [] := by
  rw [List.eq_nil_iff_forall_not_mem]
  intro n hn
  obtain ⟨j, hj⟩ := mem_names.mp hn
  obtain ⟨hin, hstay⟩ := mem_outsideEntries.mp hj
  exact hstay n (mem_names.mpr ⟨j, hin⟩) List.prefix_rfl

theorem remove_outsideEntries (h : WellFormed fs) :
    remove (outsideEntries fs p (names fs p)) p = outside fs p := by
  rw [remove, outsideEntries, List.filter_filter, outside]
  apply List.filter_congr
  intro e he
  rw [← Bool.decide_and, decide_eq_decide]
  constructor
  · rintro ⟨hne, hstay⟩ hp
    rcases h.below_cases he hp with hself | ⟨n, hn, hbelow⟩
    · exact hne hself
    · exact hstay n hn hbelow
  · intro hout
    refine ⟨fun hself => hout (hself ▸ List.prefix_rfl), fun n _ hbelow => ?_⟩
    exact hout ((List.prefix_append p [n]).trans hbelow)

theorem remove_file (h : WellFormed fs) (hmem : (p, i) ∈ fs) (hdir : i.type ≠ .directory) :
    remove fs p = outside fs p := by
  rw [remove, outside]
  apply List.filter_congr
  intro e he
  rw [decide_eq_decide]
  constructor
  · exact fun hne hp => hne (congrArg Prod.fst (h.below_file hmem hdir he hp))
  · exact fun hout hself => hout (hself ▸ List.prefix_rfl)

/-- Where there is no file there is nothing below. -/
theorem outside_of_missing (h : WellFormed fs) (hnone : ∀ e ∈ fs, e.1 ≠ p) : outside fs p = fs := by
  refine List.filter_eq_self.mpr fun e he => decide_eq_true ?_
  rintro ⟨r, heq⟩
  obtain ⟨q, i⟩ := e
  obtain rfl : p ++ r = q := heq
  cases r with
  | nil => exact hnone _ he (List.append_nil p)
  | cons n r =>
    obtain ⟨j, hj, -⟩ := h.ancestor (List.cons_ne_nil n r) he
    exact hnone _ hj rfl

/-- All files at `p` and below are removable. -/
def AllRemovable (c : Caller) (fs : Files) (p : Path) : Prop :=
  ∀ e ∈ fs, p <+: e.1 → Removable c fs e

theorem AllRemovable.of_subset (hall : AllRemovable c fs p) (h : WellFormed fs)
    (h' : WellFormed fs') (hsub : fs' ⊆ fs) : AllRemovable c fs' p := by
  intro e he hp
  rw [removable_iff h h' hsub he]
  exact hall e (hsub he) hp

/-- `rmdir` behind the loop: the directory itself has been kept until then. -/
theorem rmdir_outsideEntries (h : WellFormed fs) (hmem : (p, i) ∈ fs) (hdir : i.type = .directory)
    (hremoved : c.Admitted fs p .rmdir ∧ c.Unlinks fs p) :
    rmdir c (outsideEntries fs p (names fs p)) p = (true, outside fs p) := by
  have hwf := wellFormed_outsideEntries h p (names fs p)
  have hsub : outsideEntries fs p (names fs p) ⊆ fs := fun e he => List.mem_of_mem_filter he
  have hstays : (p, i) ∈ outsideEntries fs p (names fs p) :=
    mem_outsideEntries.mpr ⟨hmem, fun n _ => append_not_isPrefix p n⟩
  have hgranted : c.Admitted (outsideEntries fs p (names fs p)) p .rmdir ∧
      c.Unlinks (outsideEntries fs p (names fs p)) p :=
    ⟨(admitted_iff h hwf hsub hstays _).mpr hremoved.1,
      (unlinks_iff h hwf hsub hstays).mpr hremoved.2⟩
  rw [rmdir, hwf.lookup_eq_some.mpr hstays]
  dsimp only
  rw [if_pos ⟨⟨hdir, names_outsideEntries fs p⟩, hgranted⟩, remove_outsideEntries h]

/-- Below `p` there are fewer levels than `levels`. -/
def Shallow (fs : Files) (p : Path) (levels : Nat) : Prop :=
  ∀ e ∈ fs, p <+: e.1 → e.1.length < p.length + levels

theorem Shallow.entry {levels : Nat} (h : Shallow fs p (levels + 1)) (n : Bytes) :
    Shallow fs (p ++ [n]) levels := by
  intro e he hp
  have hlt := h e he ((List.prefix_append p [n]).trans hp)
  rw [List.length_append, List.length_singleton]
  omega

/-- The loop removes the trees at the entries. -/
theorem rmLoop_eq {call : Files → Path → Option (Bool × Files)} {ns : List Bytes}
    (hcall : ∀ fs', WellFormed fs' → fs' ⊆ fs → ∀ n ∈ ns,
      call fs' (p ++ [n]) = some (true, outside fs' (p ++ [n])))
    (hplain : ∀ n ∈ ns, n ≠ ascii "." ∧ n ≠ ascii "..") (h : WellFormed fs) :
    rmLoop call p ns true fs = some (true, outsideEntries fs p ns) := by
  -- on the entries that are left; `fs` is what the calls before them have left
  induction ns generalizing fs with
  | nil =>
    have hall : outsideEntries fs p [] = fs := List.filter_eq_self.mpr fun e _ => by simp
    rw [hall]
    rfl
  | cons n ns ih =>
    obtain ⟨hn, hns⟩ := List.forall_mem_cons.mp hplain
    have hsub : outside fs (p ++ [n]) ⊆ fs := fun e he => List.mem_of_mem_filter he
    have hrest := @ih (outside fs (p ++ [n]))
      (fun fs' hwf hfs' m hm =>
        hcall fs' hwf (List.Subset.trans hfs' hsub) m (List.mem_cons_of_mem n hm))
      hns (wellFormed_outside h _)
    rw [rmLoop, if_neg (not_or.mpr hn), hcall fs h (List.Subset.refl fs) n List.mem_cons_self,
      Option.bind_some, hrest, outsideEntries_outside]

/-- `Rm` of anything but a directory. -/
theorem rm_file (h : WellFormed fs) (hall : AllRemovable c fs p) (links levels : Nat)
    (hfile : ∀ i, (p, i) ∈ fs → i.type ≠ .directory) :
    rm c links (levels + 1) fs p = some (true, outside fs p) := by
  rw [rm]
  cases hlookup : lookup fs p with
  | none =>
    have hlstat : lstat c fs p = none := by
      rw [lstat, hlookup]
      exact ite_self none
    rw [hlstat, outside_of_missing h (lookup_eq_none.mp hlookup)]
  | some i =>
    have hmem := h.lookup_eq_some.mp hlookup
    have hdir := hfile i hmem
    obtain ⟨hseen, hob, -, hremoved⟩ := hall _ hmem List.prefix_rfl
    rw [if_neg hdir] at hremoved
    have hlstat := lstat_eq_some.mpr ⟨hseen, i, hlookup, rfl⟩
    rw [hlstat]
    dsimp only
    rw [if_pos ((stMode_and_eq_zero_iff i).mpr ⟨hdir, hob⟩), unlink, hlstat,
      if_neg nofun, Lib.Posix.unlink, hlookup]
    dsimp only
    rw [if_pos ⟨hdir, hremoved⟩, remove_file h hmem hdir]

/-- **`Rm` removes a tree of removable files.** -/
theorem rm_eq (h : WellFormed fs) (hall : AllRemovable c fs p) (links : Nat) {levels : Nat}
    (hlevels : Shallow fs p levels) :
    rm c links (levels + 1) fs p = some (true, outside fs p) := by
  -- on the levels below `p`, of which an entry has one less
  induction levels generalizing fs p with
  | zero =>
    apply rm_file h hall
    intro i hmem
    exact absurd (hlevels (p, i) hmem List.prefix_rfl) (Nat.lt_irrefl _)
  | succ levels ih =>
    by_cases hfile : ∀ i, (p, i) ∈ fs → i.type ≠ .directory
    · exact rm_file h hall links _ hfile
    · obtain ⟨i, hmem, hdir⟩ : ∃ i, (p, i) ∈ fs ∧ i.type = .directory := by simpa using hfile
      have hlookup := h.lookup_eq_some.mpr hmem
      obtain ⟨hseen, -, hlisted, hremoved⟩ := hall _ hmem List.prefix_rfl
      rw [if_pos hdir] at hremoved
      have hbit : i.stMode &&& sIfdir ≠ 0 := by
        rw [Ne, stMode_and_eq_zero_iff]
        exact fun hno => hno.1 hdir
      have hplain : ∀ n ∈ names fs p, n ≠ ascii "." ∧ n ≠ ascii ".." := by
        intro n hn
        obtain ⟨j, hj⟩ := mem_names.mp hn
        exact h.plain p n j hj
      -- each of the entries is removed by a call of its own
      have hcall : ∀ fs', WellFormed fs' → fs' ⊆ fs → ∀ n ∈ names fs p,
          rm c links (levels + 1) fs' (p ++ [n]) = some (true, outside fs' (p ++ [n])) := by
        intro fs' hwf hsub n _
        apply ih hwf _ fun e he hp => hlevels.entry n e (hsub he) hp
        intro e he hp
        exact hall.of_subset h hwf hsub e he ((List.prefix_append p [n]).trans hp)
      have hloop : rmLoop (rm c links (levels + 1)) p (ascii "." :: ascii ".." :: names fs p) true
          fs = some (true, outsideEntries fs p (names fs p)) := by
        rw [rmLoop, if_pos (.inl rfl), rmLoop, if_pos (.inr rfl), rmLoop_eq hcall hplain h]
      rw [rm, lstat_eq_some.mpr ⟨hseen, i, hlookup, rfl⟩]
      dsimp only
      rw [if_neg hbit, (opendir_eq_some hlookup hbit).mpr ⟨hdir, hlisted hdir, rfl⟩]
      dsimp only
      rw [hloop, Option.map_some]
      dsimp only
      rw [rmdir_outsideEntries h hmem hdir hremoved]
      rfl

end

theorem exists_shallow (fs : Files) (p : Path) : ∃ levels, Shallow fs p levels := by
  induction fs with
  | nil => exact ⟨0, fun e he => absurd he List.not_mem_nil⟩
  | cons e fs ih =>
    obtain ⟨levels, h⟩ := ih
    refine ⟨levels + e.1.length + 1, ?_⟩
    intro e' he' hp
    rcases List.mem_cons.mp he' with rfl | he'
    · omega
    · have hlt := h e' he' hp
      omega

theorem Shallow.mono {fs : Files} {p : Path} {levels levels' : Nat} (h : Shallow fs p levels)
    (hle : levels ≤ levels') : Shallow fs p levels' := by
  intro e he hp
  have hlt := h e he hp
  omega

/-- `Rm` returns `true`, the path does not exist afterwards, and what is outside the tree stays. -/
def Removes (c : Caller) (fs : Files) (path : Path) : Prop :=
  ∃ levels fs', (∀ links, ∀ levels' ≥ levels, rm c links levels' fs path = some (true, fs')) ∧
    lookup fs' path = none ∧ ∀ e ∈ fs, ¬ path <+: e.1 → e ∈ fs'

theorem removes_iff_allRemovable {c : Caller} {fs : Files} (h : WellFormed fs) (path : Path) :
    Removes c fs path ↔ AllRemovable c fs path := by
  constructor
  · rintro ⟨levels, fs', hrm, hgone, -⟩ e he hp
    have hcleared := rm_cleared h (hrm 0 levels (Nat.le_refl _))
    -- without the path there is nothing below it
    refine (hcleared.removed e he fun hstays => ?_).2
    have hmissing := outside_of_missing hcleared.wellFormed (lookup_eq_none.mp hgone)
    rw [← hmissing] at hstays
    exact (mem_outside.mp hstays).2 hp
  · intro hall
    obtain ⟨levels, hlevels⟩ := exists_shallow fs path
    refine ⟨levels + 1, outside fs path, ?_, ?_, ?_⟩
    · intro links levels' hle
      obtain ⟨k, rfl⟩ : ∃ k, levels' = k + 1 := ⟨levels' - 1, by omega⟩
      exact rm_eq h hall links (hlevels.mono (Nat.le_of_succ_le_succ hle))
    · rw [lookup_eq_none]
      rintro e he rfl
      exact (mem_outside.mp he).2 List.prefix_rfl
    · exact fun e he hout => mem_outside.mpr ⟨he, hout⟩

/-- **`Rm` removes a tree just when there is no socket and no block device in it, and the caller may
look at each of its files, list the directories and remove them all.** -/
theorem removes_iff (c : Caller) (fs : FileSystem) (path : Path) : Removes c fs.files path ↔
    ∀ e ∈ fs.files, path <+: e.1 → (e.2.type ≠ .socket ∧ e.2.type ≠ .blockDevice) ∧
      c.Admitted fs.files e.1 .lstat ∧
      (e.2.type = .directory → c.Admitted fs.files e.1 .opendir ∧ c.Allows mayRead e) ∧
      c.Admitted fs.files e.1 (if e.2.type = .directory then .rmdir else .unlink) ∧
      c.Unlinks fs.files e.1 := by
  rw [removes_iff_allRemovable fs.wellFormed]
  refine forall₃_congr fun e he hp => ?_
  constructor
  · exact fun h => ⟨not_or.mp h.type, h.seen, h.listed, h.removed⟩
  · exact fun h => ⟨h.2.1, not_or.mpr h.1, h.2.2.1, h.2.2.2⟩

/-- The superuser on a system that refuses nothing. -/
def root : Caller where
  superuser := true
  role := fun _ => .owner
  refuses := fun _ _ => false

/-- A directory with a socket. -/
def socketTree : FileSystem where
  files := [([], ⟨.directory, 0o755⟩), ([ascii "d"], ⟨.directory, 0o755⟩),
    ([ascii "d", ascii "s"], ⟨.socket, 0o755⟩)]
  wellFormed := wellFormed_of (by decide) (by decide) (by decide)

/-- Both stay, and the result is `false`. -/
theorem not_removes_socket :
    rm root 40 4 socketTree.files [ascii "d"] = some (false, socketTree.files) ∧
      ¬ Removes root socketTree.files [ascii "d"] := by
  refine ⟨by decide, ?_⟩
  rw [removes_iff_allRemovable socketTree.wellFormed]
  intro hall
  have hsocket := hall ([ascii "d", ascii "s"], ⟨.socket, 0o755⟩) (by decide) (by decide)
  exact hsocket.type (.inl rfl)

end Luwu.FSUtil
