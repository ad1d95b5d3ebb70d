import Mathlib.Data.List.Induction
import Mathlib.Data.List.Nodup
import Mathlib.Logic.Function.Basic
import Luwu.Lib.Bytes
import Luwu.Lib.Standing

/-!
# Dispatching to servlets

`ServletDispatch` keeps servlets under exact names (`m_data`) and under patterns (`m_glob`).  Adding
a servlet under a name replaces the one before it in place; adding one under a pattern removes the
one before it and appends, so that the pattern goes to the end of the search.

A servlet is a pointer of type `S`; the overloads that take a callback pass a new `FunctionServlet`.
`fnmatch` is a parameter: a fixed relation between patterns and names.
-/

namespace Luwu.Http

open Lib

structure ServletDispatch (S : Type) where
  data : Bytes → Option S
  glob : List (Bytes × S)
  dflt : S

namespace ServletDispatch

variable {S : Type}

/-- `ServletDispatch ()`, whose default is a `ServletNotFound`. -/
def new (notFound : S) : ServletDispatch S :=
  { data := fun _ => none, glob := [], dflt := notFound }

def getMatchedServlet (fnmatch : Bytes → Bytes → Bool) (d : ServletDispatch S) (uri : Bytes) : S :=
  match d.data uri with
  | some s => s
  | none =>
    match d.glob.find? fun g => fnmatch g.1 uri with
    | some g => g.2
    | none => d.dflt

def addServlet (d : ServletDispatch S) (uri : Bytes) (servlet : S) : ServletDispatch S :=
  { d with data := Function.update d.data uri (some servlet) }

/-- The loop that erases the first entry under `uri`. -/
def eraseGlob (glob : List (Bytes × S)) (uri : Bytes) : List (Bytes × S) :=
  glob.eraseP fun g => g.1 = uri

def addGlobServlet (d : ServletDispatch S) (uri : Bytes) (servlet : S) : ServletDispatch S :=
  { d with glob := eraseGlob d.glob uri ++ [(uri, servlet)] }

def delServlet (d : ServletDispatch S) (uri : Bytes) : ServletDispatch S :=
  { d with data := Function.update d.data uri none }

def delGlobServlet (d : ServletDispatch S) (uri : Bytes) : ServletDispatch S :=
  { d with glob := eraseGlob d.glob uri }

def setDefault (d : ServletDispatch S) (servlet : S) : ServletDispatch S :=
  { d with dflt := servlet }

inductive Op (S : Type) where
  | addServlet (uri : Bytes) (servlet : S)
  | addGlobServlet (uri : Bytes) (servlet : S)
  | delServlet (uri : Bytes)
  | delGlobServlet (uri : Bytes)
  | setDefault (servlet : S)

def exec (d : ServletDispatch S) : Op S → ServletDispatch S
  | .addServlet uri s => d.addServlet uri s
  | .addGlobServlet uri s => d.addGlobServlet uri s
  | .delServlet uri => d.delServlet uri
  | .delGlobServlet uri => d.delGlobServlet uri
  | .setDefault s => d.setDefault s

/-- The dispatcher after a sequence of calls. -/
def run (notFound : S) (ops : List (Op S)) : ServletDispatch S := ops.foldl exec (new notFound)

/-! ## What the calls stand for -/

/-- `undoes o a`: the registration `a` does not outlive the call `o`. -/
def Undoes : Op S → Op S → Prop
  | .addServlet uri _, .addServlet uri' _ => uri = uri'
  | .delServlet uri, .addServlet uri' _ => uri = uri'
  | .addGlobServlet uri _, .addGlobServlet uri' _ => uri = uri'
  | .delGlobServlet uri, .addGlobServlet uri' _ => uri = uri'
  | .setDefault _, .setDefault _ => True
  | _, _ => False

/-- `addServlet (uri, s)` is call `i`, the latest for `uri`, which has not been deleted since. -/
def Registered (ops : List (Op S)) (i : Nat) (uri : Bytes) (s : S) : Prop :=
  Standing Undoes ops i (.addServlet uri s)

/-- The same of `addGlobServlet (pat, s)`. -/
def GlobRegistered (ops : List (Op S)) (i : Nat) (pat : Bytes) (s : S) : Prop :=
  Standing Undoes ops i (.addGlobServlet pat s)

/-- The default is that of the latest `setDefault`, or the first one. -/
def IsDefault (notFound : S) (ops : List (Op S)) (s : S) : Prop :=
  (∃ i, Standing Undoes ops i (.setDefault s)) ∨ ((∀ s', Op.setDefault s' ∉ ops) ∧ s = notFound)

variable {notFound : S} {ops : List (Op S)} {o : Op S} {uri : Bytes} {s : S} {i : Nat}

theorem run_concat : run notFound (ops ++ [o]) = (run notFound ops).exec o := by
  unfold run
  rw [List.foldl_append]
  rfl

/-- `m_data` holds the standing registrations. -/
theorem data_eq_some_iff (notFound : S) (uri : Bytes) (s : S) :
    (run notFound ops).data uri = some s ↔ ∃ i, Registered ops i uri s := by
  unfold Registered
  induction ops using List.reverseRecOn with
  | nil => exact iff_of_false (fun h => by cases h) fun ⟨i, h⟩ => not_standing_nil h
  | append_singleton ops o ih =>
    rw [run_concat]
    cases o with
    | addServlet uri' s' =>
      -- under its own name the new servlet stands, and undoes the one before
      show Function.update (run notFound ops).data uri' (some s') uri = some s ↔ _
      by_cases huri : uri = uri'
      · have hundo : Undoes (.addServlet uri' s') (.addServlet uri' s) := rfl
        rw [huri, Function.update_self, exists_standing_concat_of_undoes hundo]
        simp only [Option.some.injEq, Op.addServlet.injEq, true_and]
        exact eq_comm
      · rw [Function.update_of_ne huri, ih]
        apply Iff.symm
        apply exists_standing_concat_of_ne
        · simp [huri]
        · exact fun hundo => huri (Eq.symm hundo)
    | delServlet uri' =>
      -- under this name nothing stands any more
      show Function.update (run notFound ops).data uri' none uri = some s ↔ _
      by_cases huri : uri = uri'
      · have hundo : Undoes (.delServlet uri') (.addServlet uri' s) := rfl
        rw [huri, Function.update_self, exists_standing_concat_of_undoes hundo]
        simp
      · rw [Function.update_of_ne huri, ih]
        apply Iff.symm
        apply exists_standing_concat_of_ne
        · simp
        · exact fun hundo => huri (Eq.symm hundo)
    -- the other calls do not touch `m_data`
    | addGlobServlet uri' s' => exact ih.trans (exists_standing_concat_of_ne (by simp) id).symm
    | delGlobServlet uri' => exact ih.trans (exists_standing_concat_of_ne (by simp) id).symm
    | setDefault s' => exact ih.trans (exists_standing_concat_of_ne (by simp) id).symm

theorem isDefault_dflt : IsDefault notFound ops (run notFound ops).dflt := by
  unfold IsDefault
  induction ops using List.reverseRecOn with
  | nil => exact .inr ⟨fun s' h => absurd h List.not_mem_nil, rfl⟩
  | append_singleton ops o ih =>
    rw [run_concat]
    by_cases hset : ∃ s, o = .setDefault s
    · obtain ⟨s, rfl⟩ := hset
      exact .inl ((exists_standing_concat_of_undoes trivial).mpr rfl)
    · have hkeep : ((run notFound ops).exec o).dflt = (run notFound ops).dflt := by
        cases o with
        | setDefault s => exact absurd ⟨s, rfl⟩ hset
        | _ => rfl
      have hundo : ∀ s, ¬ Undoes o (.setDefault s) := by
        intro s
        cases o with
        | setDefault s => exact absurd ⟨s, rfl⟩ hset
        | _ => exact id
      rw [hkeep]
      rcases ih with hstand | ⟨hnone, heq⟩
      · refine .inl ((exists_standing_concat_of_ne ?_ (hundo _)).mpr hstand)
        exact fun heq => hset ⟨_, heq.symm⟩
      · refine .inr ⟨fun s' hs' => ?_, heq⟩
        rcases List.mem_append.mp hs' with hs' | hs'
        · exact hnone s' hs'
        · exact hset ⟨s', (List.mem_singleton.mp hs').symm⟩

/-! ## The order of the patterns -/

/-- The entries of `m_glob` with the numbers of the calls that added them. -/
structure Stamped (ops : List (Op S)) (glob : List (Bytes × S)) (stamped : List (Nat × Bytes × S)) :
    Prop where
  glob_eq : glob = stamped.map Prod.snd
  sorted : stamped.Pairwise fun e e' => e.1 < e'.1
  nodup : (glob.map Prod.fst).Nodup
  mem_iff : ∀ e, e ∈ stamped ↔ GlobRegistered ops e.1 e.2.1 e.2.2

/-- Where the keys differ, the first entry under a key is the only one. -/
theorem eraseGlob_eq {glob : List (Bytes × S)} (h : (glob.map Prod.fst).Nodup) (uri : Bytes) :
    eraseGlob glob uri = glob.filter fun g => g.1 ≠ uri := by
  induction glob with
  | nil => rfl
  | cons g glob ih =>
    rw [List.map_cons, List.nodup_cons] at h
    unfold eraseGlob
    by_cases hg : g.1 = uri
    · rw [List.eraseP_cons_of_pos (by simpa using hg), List.filter_cons_of_neg (by simpa using hg)]
      apply Eq.symm
      apply List.filter_eq_self.mpr
      intro g' hg'
      have hne : g'.1 ≠ g.1 := fun heq => h.1 (by rw [← heq]; exact List.mem_map_of_mem hg')
      rw [hg] at hne
      simpa using hne
    · rw [List.eraseP_cons_of_neg (by simpa using hg), List.filter_cons_of_pos (by simpa using hg)]
      exact congrArg _ (ih h.2)

/-- Erasing a pattern keeps the others with their numbers. -/
theorem Stamped.erase {glob : List (Bytes × S)} {stamped : List (Nat × Bytes × S)}
    (h : Stamped ops glob stamped) (uri : Bytes) :
    eraseGlob glob uri = (stamped.filter fun e => e.2.1 ≠ uri).map Prod.snd ∧
      (stamped.filter fun e => e.2.1 ≠ uri).Pairwise (fun e e' => e.1 < e'.1) ∧
      ((eraseGlob glob uri).map Prod.fst).Nodup := by
  have hfilter := eraseGlob_eq h.nodup uri
  refine ⟨?_, h.sorted.filter _, ?_⟩
  · rw [hfilter, h.glob_eq, List.filter_map]
    rfl
  · rw [hfilter]
    exact (List.filter_sublist.map Prod.fst).nodup h.nodup

theorem Stamped.step {d : ServletDispatch S} {stamped : List (Nat × Bytes × S)}
    (h : Stamped ops d.glob stamped) (o : Op S) :
    ∃ stamped', Stamped (ops ++ [o]) (d.exec o).glob stamped' := by
  have hkeep : (d.exec o).glob = d.glob →
      (∀ pat s, Op.addGlobServlet pat s ≠ o ∧ ¬ Undoes o (.addGlobServlet pat s)) →
        ∃ stamped', Stamped (ops ++ [o]) (d.exec o).glob stamped' := by
    intro hglob hother
    refine ⟨stamped, ?_, h.sorted, ?_, ?_⟩
    · rw [hglob]
      exact h.glob_eq
    · rw [hglob]
      exact h.nodup
    · intro e
      rw [h.mem_iff e]
      exact (standing_concat_of_ne (hother _ _).1 (hother _ _).2).symm
  cases o with
  | addServlet uri s => exact hkeep rfl fun pat s' => ⟨by simp, id⟩
  | delServlet uri => exact hkeep rfl fun pat s' => ⟨by simp, id⟩
  | setDefault s => exact hkeep rfl fun pat s' => ⟨by simp, id⟩
  | delGlobServlet uri =>
    obtain ⟨hglob, hsorted, hnodup⟩ := h.erase uri
    refine ⟨stamped.filter fun e => e.2.1 ≠ uri, hglob, hsorted, hnodup, ?_⟩
    intro e
    unfold GlobRegistered
    rw [List.mem_filter, h.mem_iff e, standing_concat]
    constructor
    · intro hm
      exact .inr ⟨hm.1, fun hundo => (by simpa using hm.2 : e.2.1 ≠ uri) (Eq.symm hundo)⟩
    · intro hm
      rcases hm with ⟨-, heq⟩ | ⟨hstand, hundo⟩
      · cases heq
      · exact ⟨hstand, by simpa using fun heq : e.2.1 = uri => hundo (Eq.symm heq)⟩
  | addGlobServlet uri s =>
    obtain ⟨hglob, hsorted, hnodup⟩ := h.erase uri
    refine ⟨stamped.filter (fun e => e.2.1 ≠ uri) ++ [(ops.length, uri, s)], ?_, ?_, ?_, ?_⟩
    · show eraseGlob d.glob uri ++ [(uri, s)] = _
      rw [hglob, List.map_append]
      rfl
    · -- the new entry has the largest number
      rw [List.pairwise_append]
      refine ⟨hsorted, List.pairwise_singleton _ _, ?_⟩
      intro e he e' he'
      rw [List.mem_singleton.mp he']
      exact ((h.mem_iff e).mp (List.mem_of_mem_filter he)).lt
    · show ((eraseGlob d.glob uri ++ [(uri, s)]).map Prod.fst).Nodup
      rw [List.map_append, List.nodup_append]
      refine ⟨hnodup, List.nodup_singleton _, ?_⟩
      intro pat hpat pat' hpat' heq
      rw [List.mem_singleton.mp hpat'] at heq
      obtain ⟨g, hg, hgpat⟩ := List.mem_map.mp hpat
      rw [eraseGlob_eq h.nodup, List.mem_filter] at hg
      exact (by simpa using hg.2 : g.1 ≠ uri) (hgpat.trans heq)
    · intro e
      unfold GlobRegistered
      rw [List.mem_append, List.mem_filter, h.mem_iff e, standing_concat, List.mem_singleton]
      constructor
      · intro hm
        rcases hm with ⟨hstand, hne⟩ | heq
        · exact .inr ⟨hstand, fun hundo => (by simpa using hne : e.2.1 ≠ uri) (Eq.symm hundo)⟩
        · rw [heq]
          exact .inl ⟨rfl, rfl⟩
      · intro hm
        rcases hm with ⟨hi, heq⟩ | ⟨hstand, hundo⟩
        · refine .inr ?_
          obtain ⟨i, pat, s'⟩ := e
          cases heq
          rw [show i = ops.length from hi]
        · exact .inl ⟨hstand, by simpa using fun heq : e.2.1 = uri => hundo (Eq.symm heq)⟩

theorem exists_stamped (notFound : S) (ops : List (Op S)) :
    ∃ stamped, Stamped ops (run notFound ops).glob stamped := by
  induction ops using List.reverseRecOn with
  | nil =>
    refine ⟨[], rfl, List.Pairwise.nil, List.nodup_nil, fun e => ?_⟩
    exact iff_of_false List.not_mem_nil not_standing_nil
  | append_singleton ops o ih =>
    obtain ⟨stamped, h⟩ := ih
    rw [run_concat]
    exact h.step o

/-! ## What a name is served by -/

/-- The standing pattern that matches `uri` and was added first. -/
structure FirstMatch (fnmatch : Bytes → Bytes → Bool) (ops : List (Op S)) (uri : Bytes) (i : Nat)
    (pat : Bytes) (s : S) : Prop where
  standing : GlobRegistered ops i pat s
  fits : fnmatch pat uri = true
  first : ∀ j pat' s', GlobRegistered ops j pat' s' → fnmatch pat' uri = true → i ≤ j

/-- The servlet that a sequence of calls assigns to `uri`. -/
inductive Serves (fnmatch : Bytes → Bytes → Bool) (notFound : S) (ops : List (Op S)) (uri : Bytes)
    (s : S) : Prop where
  | byName {i : Nat} (h : Registered ops i uri s)
  | byPattern (hname : ∀ i s', ¬ Registered ops i uri s') {i : Nat} {pat : Bytes}
      (h : FirstMatch fnmatch ops uri i pat s)
  | byDefault (hname : ∀ i s', ¬ Registered ops i uri s')
      (hpattern : ∀ i pat s', GlobRegistered ops i pat s' → fnmatch pat uri = false)
      (h : IsDefault notFound ops s)

variable {fnmatch : Bytes → Bytes → Bool}

theorem Stamped.find_some {glob : List (Bytes × S)} {stamped : List (Nat × Bytes × S)}
    (h : Stamped ops glob stamped) {g : Bytes × S}
    (hfind : (glob.find? fun g => fnmatch g.1 uri) = some g) :
    ∃ i, FirstMatch fnmatch ops uri i g.1 g.2 := by
  rw [h.glob_eq, List.find?_map, Option.map_eq_some_iff] at hfind
  obtain ⟨e, hfind, rfl⟩ := hfind
  obtain ⟨hfits, before, after, hsplit, hbefore⟩ := List.find?_eq_some_iff_append.mp hfind
  have he : e ∈ stamped := by
    rw [hsplit]
    exact List.mem_append_right _ List.mem_cons_self
  refine ⟨e.1, (h.mem_iff e).mp he, hfits, ?_⟩
  intro j pat' s' hstand hfits'
  have he' : (j, pat', s') ∈ before ++ e :: after := by
    rw [← hsplit]
    exact (h.mem_iff _).mpr hstand
  have hsorted := h.sorted
  rw [hsplit, List.pairwise_append, List.pairwise_cons] at hsorted
  -- the entries before the one found do not match, and those after it have larger numbers
  rcases List.mem_append.mp he' with he' | he'
  · have hno := hbefore _ he'
    simp [hfits'] at hno
  · rcases List.mem_cons.mp he' with heq | he'
    · exact Nat.le_of_eq (congrArg Prod.fst heq).symm
    · exact Nat.le_of_lt (hsorted.2.1.1 _ he')

theorem Stamped.find_none {glob : List (Bytes × S)} {stamped : List (Nat × Bytes × S)}
    (h : Stamped ops glob stamped) (hfind : (glob.find? fun g => fnmatch g.1 uri) = none) {i : Nat}
    {pat : Bytes} {s : S} (hstand : GlobRegistered ops i pat s) : fnmatch pat uri = false := by
  have hmem : (pat, s) ∈ glob := by
    rw [h.glob_eq]
    exact List.mem_map.mpr ⟨(i, pat, s), (h.mem_iff (i, pat, s)).mpr hstand, rfl⟩
  simpa using List.find?_eq_none.mp hfind _ hmem

theorem isDefault_unique {s s' : S} (h : IsDefault notFound ops s)
    (h' : IsDefault notFound ops s') : s = s' := by
  rcases h with ⟨i, h⟩ | ⟨hnone, rfl⟩
  · rcases h' with ⟨j, h'⟩ | ⟨hnone, -⟩
    · -- of two calls of `setDefault` the later one undoes the other
      have hij : i = j := by
        by_contra hne
        rcases Nat.lt_or_gt_of_ne hne with hlt | hlt
        · exact h.not_undoes h' hlt trivial
        · exact h'.not_undoes h hlt trivial
      have hget := h.1
      rw [hij, h'.1] at hget
      cases hget
      rfl
    · exact absurd (List.mem_of_getElem? h.1) (hnone s)
  · rcases h' with ⟨j, h'⟩ | ⟨-, rfl⟩
    · exact absurd (List.mem_of_getElem? h'.1) (hnone s')
    · rfl

theorem serves_getMatchedServlet (fnmatch : Bytes → Bytes → Bool) (notFound : S)
    (ops : List (Op S)) (uri : Bytes) :
    Serves fnmatch notFound ops uri (getMatchedServlet fnmatch (run notFound ops) uri) := by
  unfold getMatchedServlet
  cases hdata : (run notFound ops).data uri with
  | some s =>
    obtain ⟨i, h⟩ := (data_eq_some_iff notFound uri s).mp hdata
    exact .byName h
  | none =>
    have hname : ∀ i s', ¬ Registered ops i uri s' := by
      intro i s' h
      have hsome := (data_eq_some_iff notFound uri s').mpr ⟨i, h⟩
      rw [hdata] at hsome
      cases hsome
    obtain ⟨stamped, hst⟩ := exists_stamped notFound ops
    cases hfind : (run notFound ops).glob.find? fun g => fnmatch g.1 uri with
    | some g =>
      obtain ⟨i, h⟩ := hst.find_some hfind
      exact .byPattern hname h
    | none => exact .byDefault hname (fun i pat s' h => hst.find_none hfind h) isDefault_dflt

theorem Serves.unique {s s' : S} (h : Serves fnmatch notFound ops uri s)
    (h' : Serves fnmatch notFound ops uri s') : s = s' := by
  cases h with
  | byName h =>
    cases h' with
    | byName h' =>
      -- `m_data` has one servlet for the name
      have hs := (data_eq_some_iff notFound uri s).mpr ⟨_, h⟩
      rw [(data_eq_some_iff notFound uri s').mpr ⟨_, h'⟩] at hs
      cases hs
      rfl
    | byPattern hname => exact absurd h (hname _ _)
    | byDefault hname => exact absurd h (hname _ _)
  | byPattern hname h =>
    cases h' with
    | byName h' => exact absurd h' (hname _ _)
    | byPattern _ h' =>
      -- each of the two entries is the first one that fits
      have hij := Nat.le_antisymm (h.first _ _ _ h'.standing h'.fits)
        (h'.first _ _ _ h.standing h.fits)
      have hget := h.standing.1
      rw [hij, h'.standing.1] at hget
      cases hget
      rfl
    | byDefault _ hpattern =>
      have hfits := h.fits
      rw [hpattern _ _ _ h.standing] at hfits
      cases hfits
  | byDefault hname hpattern h =>
    cases h' with
    | byName h' => exact absurd h' (hname _ _)
    | byPattern _ h' =>
      have hfits := h'.fits
      rw [hpattern _ _ _ h'.standing] at hfits
      cases hfits
    | byDefault _ _ h' => exact isDefault_unique h h'

/-- The calls that bear on `uri`. -/
def concerns (fnmatch : Bytes → Bytes → Bool) (uri : Bytes) : Op S → Bool
  | .addServlet uri' _ => uri' = uri
  | .addGlobServlet pat _ => fnmatch pat uri
  | .delServlet uri' => uri' = uri
  | .delGlobServlet pat => fnmatch pat uri
  | .setDefault _ => true

/-- Two dispatchers that agree on what bears on `uri`. -/
structure Agree (fnmatch : Bytes → Bytes → Bool) (uri : Bytes) (d d' : ServletDispatch S) :
    Prop where
  data : d.data uri = d'.data uri
  glob : d.glob.filter (fun g => fnmatch g.1 uri) = d'.glob.filter fun g => fnmatch g.1 uri
  dflt : d.dflt = d'.dflt

theorem Agree.matched {d d' : ServletDispatch S} (h : Agree fnmatch uri d d') :
    getMatchedServlet fnmatch d uri = getMatchedServlet fnmatch d' uri := by
  have hfind : ∀ glob : List (Bytes × S), (glob.find? fun g => fnmatch g.1 uri) =
      (glob.filter fun g => fnmatch g.1 uri).head? := fun glob => List.head?_filter.symm
  unfold getMatchedServlet
  rw [h.data, h.dflt, hfind, hfind, h.glob]

theorem glob_nodup (notFound : S) (ops : List (Op S)) :
    ((run notFound ops).glob.map Prod.fst).Nodup := by
  obtain ⟨stamped, h⟩ := exists_stamped notFound ops
  exact h.nodup

/-- Erasing a pattern, as far as the entries that match `uri` are concerned. -/
theorem filter_eraseGlob {glob : List (Bytes × S)} (h : (glob.map Prod.fst).Nodup) (pat : Bytes) :
    (eraseGlob glob pat).filter (fun g => fnmatch g.1 uri) =
      (glob.filter fun g => fnmatch g.1 uri).filter fun g => g.1 ≠ pat := by
  rw [eraseGlob_eq h, List.filter_filter, List.filter_filter]
  apply List.filter_congr
  intro g _
  exact Bool.and_comm _ _

/-- A pattern that does not match `uri` is not among the entries that do. -/
theorem filter_ne_of_not_fits {glob : List (Bytes × S)} {pat : Bytes}
    (hpat : fnmatch pat uri = false) :
    ((glob.filter fun g => fnmatch g.1 uri).filter fun g => g.1 ≠ pat) =
      glob.filter fun g => fnmatch g.1 uri := by
  apply List.filter_eq_self.mpr
  intro g hg
  have hfits := (List.mem_filter.mp hg).2
  have hne : g.1 ≠ pat := by
    intro heq
    rw [heq, hpat] at hfits
    cases hfits
  simpa using hne

theorem Agree.other {d d' : ServletDispatch S} (h : Agree fnmatch uri d d')
    (hd : (d.glob.map Prod.fst).Nodup) (ho : concerns fnmatch uri o = false) :
    Agree fnmatch uri (d.exec o) d' := by
  cases o with
  | addServlet uri' s =>
    have hne : uri ≠ uri' := fun heq => by simp [concerns, heq] at ho
    exact ⟨(Function.update_of_ne hne _ _).trans h.data, h.glob, h.dflt⟩
  | delServlet uri' =>
    have hne : uri ≠ uri' := fun heq => by simp [concerns, heq] at ho
    exact ⟨(Function.update_of_ne hne _ _).trans h.data, h.glob, h.dflt⟩
  | addGlobServlet pat s =>
    have hpat : fnmatch pat uri = false := ho
    refine ⟨h.data, ?_, h.dflt⟩
    show (eraseGlob d.glob pat ++ [(pat, s)]).filter _ = _
    rw [List.filter_append, filter_eraseGlob hd, filter_ne_of_not_fits hpat, h.glob,
      List.filter_cons_of_neg (by simp [hpat]), List.filter_nil, List.append_nil]
  | delGlobServlet pat =>
    refine ⟨h.data, ?_, h.dflt⟩
    show (eraseGlob d.glob pat).filter _ = _
    rw [filter_eraseGlob hd, filter_ne_of_not_fits ho, h.glob]
  | setDefault s => cases ho

theorem Agree.both {d d' : ServletDispatch S} (h : Agree fnmatch uri d d')
    (hd : (d.glob.map Prod.fst).Nodup) (hd' : (d'.glob.map Prod.fst).Nodup) (o : Op S) :
    Agree fnmatch uri (d.exec o) (d'.exec o) := by
  cases o with
  | addServlet uri' s =>
    refine ⟨?_, h.glob, h.dflt⟩
    show Function.update d.data uri' _ uri = Function.update d'.data uri' _ uri
    by_cases huri : uri = uri'
    · rw [huri, Function.update_self, Function.update_self]
    · rw [Function.update_of_ne huri, Function.update_of_ne huri, h.data]
  | delServlet uri' =>
    refine ⟨?_, h.glob, h.dflt⟩
    show Function.update d.data uri' _ uri = Function.update d'.data uri' _ uri
    by_cases huri : uri = uri'
    · rw [huri, Function.update_self, Function.update_self]
    · rw [Function.update_of_ne huri, Function.update_of_ne huri, h.data]
  | addGlobServlet pat s =>
    refine ⟨h.data, ?_, h.dflt⟩
    show (eraseGlob d.glob pat ++ [(pat, s)]).filter _ =
      (eraseGlob d'.glob pat ++ [(pat, s)]).filter _
    rw [List.filter_append, List.filter_append, filter_eraseGlob hd, filter_eraseGlob hd', h.glob]
  | delGlobServlet pat =>
    refine ⟨h.data, ?_, h.dflt⟩
    show (eraseGlob d.glob pat).filter _ = (eraseGlob d'.glob pat).filter _
    rw [filter_eraseGlob hd, filter_eraseGlob hd', h.glob]
  | setDefault s => exact ⟨h.data, h.glob, rfl⟩

/-- The calls that do not concern `uri` might as well not have been made. -/
theorem agree_filter (notFound : S) (ops : List (Op S)) :
    Agree fnmatch uri (run notFound ops) (run notFound (ops.filter (concerns fnmatch uri))) := by
  induction ops using List.reverseRecOn with
  | nil => exact ⟨rfl, rfl, rfl⟩
  | append_singleton ops o ih =>
    rw [run_concat, List.filter_append]
    cases ho : concerns fnmatch uri o with
    | true =>
      rw [List.filter_cons_of_pos ho, List.filter_nil, run_concat]
      exact ih.both (glob_nodup notFound _) (glob_nodup notFound _) o
    | false =>
      rw [List.filter_cons_of_neg (by simp [ho]), List.filter_nil, List.append_nil]
      exact ih.other (glob_nodup notFound _) ho

/-- **Dispatching.**  After any sequence of calls no pattern is listed twice; a name is served by
the latest servlet added for it and not deleted, else by that of the standing pattern that matches
it and was added first, else by the default; and only calls that concern the name matter. -/
theorem dispatches (fnmatch : Bytes → Bytes → Bool) (notFound : S) (ops : List (Op S)) :
    ((run notFound ops).glob.map Prod.fst).Nodup ∧
      ∀ uri, (∀ s, getMatchedServlet fnmatch (run notFound ops) uri = s ↔
          Serves fnmatch notFound ops uri s) ∧
        getMatchedServlet fnmatch (run notFound ops) uri =
          getMatchedServlet fnmatch (run notFound (ops.filter (concerns fnmatch uri))) uri := by
  refine ⟨glob_nodup notFound ops, fun uri => ⟨fun s => ?_, (agree_filter notFound ops).matched⟩⟩
  constructor
  · intro h
    rw [← h]
    exact serves_getMatchedServlet fnmatch notFound ops uri
  · exact fun h => (serves_getMatchedServlet fnmatch notFound ops uri).unique h

/-- Adding a pattern again puts it behind the others. -/
example : getMatchedServlet (fun pat _ => pat ≠ []) (run 0 [.addGlobServlet [42] 1,
    .addGlobServlet [47, 42] 2, .addGlobServlet [42] 3]) [47] = 2 := by decide

end ServletDispatch

end Luwu.Http
