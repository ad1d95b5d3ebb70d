import Mathlib.Order.RelClasses
import Luwu.Http.Params

/-!
# The keys of the maps

`CaseInsensitiveLess` compares names as C strings, so that nothing behind a zero counts.  The maps
of a request keep apart what the comparison keeps apart.
-/

namespace Luwu.Http

open Lib StdString StringUtil

/-! ## The comparison -/

/-- `strcasecmp` on the C strings that begin with two texts; a zero follows each text. -/
def strcasecmp : Bytes → Bytes → Int
  | [], [] => 0
  | [], d :: _ => -(tolower d).toNat
  | c :: _, [] => (tolower c).toNat
  | c :: s, d :: t =>
    if tolower c ≠ tolower d then (tolower c).toNat - (tolower d).toNat
    else if c = 0 then 0 else strcasecmp s t

/-- Neither is less than the other. -/
def Equivalent (a b : Bytes) : Prop := ¬ caseInsensitiveLess a b ∧ ¬ caseInsensitiveLess b a

/-- Byte by byte the same, but for the case of letters. -/
def EqualIgnoringCase (a b : Bytes) : Prop := a.map tolower = b.map tolower

instance (a b : Bytes) : Decidable (EqualIgnoringCase a b) := inferInstanceAs (Decidable (_ = _))

/-- The same in front of the first zero, if there is one, and not the same from there on. -/
def DifferBehindZero (a b : Bytes) : Prop :=
  (cstr a).map tolower = (cstr b).map tolower ∧
    (a.dropWhile (· ≠ 0)).map tolower ≠ (b.dropWhile (· ≠ 0)).map tolower

instance (a b : Bytes) : Decidable (DifferBehindZero a b) := inferInstanceAs (Decidable (_ ∧ _))

section

variable {a b s t : Bytes} {c d : UInt8}

theorem tolower_eq_zero_iff (c : UInt8) : tolower c = 0 ↔ c = 0 := by
  have hall : ∀ c : UInt8, tolower c = 0 ↔ c = 0 := forall_byte (by decide +kernel)
  exact hall c

theorem caseKey_zero (s : Bytes) : caseKey (0 :: s) = [] := rfl

theorem caseKey_cons (hc : c ≠ 0) (s : Bytes) :
    caseKey (c :: s) = (tolower c).toNat :: caseKey s := by
  rw [caseKey, List.takeWhile_cons_of_pos (by simpa using hc)]
  rfl

/-- **`caseInsensitiveLess` is `strcasecmp (a, b) < 0`.** -/
theorem strcasecmp_neg_iff (a b : Bytes) : strcasecmp a b < 0 ↔ caseInsensitiveLess a b := by
  have hlower (c : UInt8) : (tolower c).toNat = 0 ↔ c = 0 := by
    rw [← tolower_eq_zero_iff, ← UInt8.toNat_inj]
    rfl
  show strcasecmp a b < 0 ↔ caseKey a < caseKey b
  -- on the first string; where the letters agree, either both strings end or neither does
  induction a generalizing b with
  | nil =>
    cases b with
    | nil => exact iff_of_false (by decide) (lt_irrefl _)
    | cons d t =>
      rw [strcasecmp]
      by_cases hd : d = 0
      · subst hd
        exact iff_of_false (by decide +revert) (lt_irrefl _)
      · have hpos := mt (hlower d).mp hd
        rw [caseKey_cons hd]
        exact iff_of_true (by omega) (List.nil_lt_cons _ _)
  | cons c s ih =>
    cases b with
    | nil => exact iff_of_false (by rw [strcasecmp]; omega) (List.not_lt_nil _)
    | cons d t =>
      have hc := hlower c
      have hd := hlower d
      rw [strcasecmp]
      by_cases heq : tolower c = tolower d
      · rw [if_neg (not_not.mpr heq)]
        rw [heq] at hc
        by_cases hzero : c = 0
        · -- both strings end
          rw [if_pos hzero, hzero, hd.mp (hc.mpr hzero)]
          exact iff_of_false (lt_irrefl _) (lt_irrefl _)
        · have hzero' : d ≠ 0 := fun h => hzero (hc.mp (hd.mpr h))
          rw [if_neg hzero, ih, caseKey_cons hzero, caseKey_cons hzero', heq, List.cons_lt_cons_iff]
          simp
      · have hne : (tolower c).toNat ≠ (tolower d).toNat := mt UInt8.toNat_inj.mp heq
        rw [if_pos heq]
        by_cases hzero : c = 0
        · have hzero' : d ≠ 0 := by
            rintro rfl
            exact heq (congrArg tolower hzero)
          have hnil : caseKey (c :: s) = [] := by rw [hzero, caseKey_zero]
          have hlow := hc.mpr hzero
          rw [caseKey_cons hzero', hnil]
          exact iff_of_true (by omega) (List.nil_lt_cons _ _)
        · by_cases hzero' : d = 0
          · have hnil : caseKey (d :: t) = [] := by rw [hzero', caseKey_zero]
            have hlow := hd.mpr hzero'
            rw [hnil]
            exact iff_of_false (by omega) (List.not_lt_nil _)
          · rw [caseKey_cons hzero, caseKey_cons hzero', List.cons_lt_cons_iff]
            omega

theorem caseKey_eq_iff (a b : Bytes) :
    caseKey a = caseKey b ↔ (cstr a).map tolower = (cstr b).map tolower := by
  have hkey (s : Bytes) : caseKey s = ((cstr s).map tolower).map UInt8.toNat := by
    rw [List.map_map]
    rfl
  rw [hkey, hkey]
  exact (List.map_injective_iff.mpr fun _ _ => UInt8.toNat_inj.mp).eq_iff

theorem equivalent_iff (a b : Bytes) : Equivalent a b ↔ caseKey a = caseKey b := by
  rw [Equivalent, caseInsensitiveLess, caseInsensitiveLess, not_lt, not_lt]
  exact ⟨fun h => le_antisymm h.2 h.1, fun h => ⟨h.ge, h.le⟩⟩

/-- Equal texts are equal in front of a zero and from there on. -/
theorem equalIgnoringCase_iff (a b : Bytes) : EqualIgnoringCase a b ↔
    (cstr a).map tolower = (cstr b).map tolower ∧
      (a.dropWhile (· ≠ 0)).map tolower = (b.dropWhile (· ≠ 0)).map tolower := by
  have hzero : ((fun c : UInt8 => decide (c ≠ 0)) ∘ tolower) = fun c => decide (c ≠ 0) := by
    funext c
    simp [tolower_eq_zero_iff]
  have hfront (s : Bytes) : (s.map tolower).takeWhile (· ≠ 0) = (cstr s).map tolower := by
    rw [List.takeWhile_map, hzero]
    rfl
  have hback (s : Bytes) :
      (s.map tolower).dropWhile (· ≠ 0) = (s.dropWhile (· ≠ 0)).map tolower := by
    rw [List.dropWhile_map, hzero]
  constructor
  · intro h
    rw [EqualIgnoringCase] at h
    rw [← hfront, ← hfront, ← hback, ← hback, h]
    exact ⟨rfl, rfl⟩
  · rintro ⟨hf, hb⟩
    rw [EqualIgnoringCase, ← List.takeWhile_append_dropWhile (p := (· ≠ 0)) (l := a.map tolower),
      hfront, hback, hf, hb, ← hfront, ← hback, List.takeWhile_append_dropWhile]

/-- The order finds two names equivalent that are equal, unless they differ behind a zero. -/
theorem equivalent_iff_iff (a b : Bytes) :
    (Equivalent a b ↔ EqualIgnoringCase a b) ↔ ¬ DifferBehindZero a b := by
  rw [equivalent_iff, caseKey_eq_iff, equalIgnoringCase_iff, DifferBehindZero]
  tauto

theorem strictWeakOrder : IsStrictWeakOrder Bytes caseInsensitiveLess where
  irrefl a := lt_irrefl (caseKey a)
  trans a b c := lt_trans (a := caseKey a) (b := caseKey b) (c := caseKey c)
  incomp_trans a b c hab hbc := by
    have hkeys := ((equivalent_iff a b).mp hab).trans ((equivalent_iff b c).mp hbc)
    exact (equivalent_iff a c).mpr hkeys

end

/-! ## What is done to the maps -/

/-- The maps of a request. -/
inductive Place where
  | headers
  | params
  | cookies
deriving DecidableEq

def HttpRequest.map (r : HttpRequest) : Place → MapType
  | .headers => r.headers
  | .params => r.params
  | .cookies => r.cookies

/-- What enters names into the maps or removes them. -/
inductive Operation where
  | setHeader (key val : Bytes)
  | setParam (key val : Bytes)
  | setCookie (key val : Bytes)
  | delHeader (key : Bytes)
  | delParam (key : Bytes)
  | delCookie (key : Bytes)
  | initQueryParam
  | initBodyParam
  | initCookies

def Operation.apply : Operation → HttpRequest → HttpRequest
  | .setHeader key val, r => r.setHeader key val
  | .setParam key val, r => { r with params := r.params.assign key val }
  | .setCookie key val, r => { r with cookies := r.cookies.assign key val }
  | .delHeader key, r => { r with headers := r.headers.erase key }
  | .delParam key, r => { r with params := r.params.erase key }
  | .delCookie key, r => { r with cookies := r.cookies.erase key }
  | .initQueryParam, r => r.initQueryParam
  | .initBodyParam, r => r.initBodyParam
  | .initCookies, r => r.initCookies

/-- The names that an operation enters into one of the maps or removes from it. -/
def Operation.keys (r : HttpRequest) : Operation → Place → List Bytes
  | .setHeader key _, .headers | .delHeader key, .headers => [key]
  | .setParam key _, .params | .delParam key, .params => [key]
  | .setCookie key _, .cookies | .delCookie key, .cookies => [key]
  | .initQueryParam, .params => (parseParam r.query '&'.toUInt8 id 0).map Prod.fst
  | .initBodyParam, .params => (parseParam r.body '&'.toUInt8 id 0).map Prod.fst
  | .initCookies, .cookies =>
    (parseParam (getHeader r.headers (ascii "cookie")) ';'.toUInt8 trimBlanks 0).map Prod.fst
  | _, _ => []

/-- The request after some operations. -/
def HttpRequest.afterAll (r : HttpRequest) (ops : List Operation) : HttpRequest :=
  ops.foldl (fun r op => op.apply r) r

/-- The names of a run. -/
def runKeys (r : HttpRequest) : List Operation → Place → List Bytes
  | [], _ => []
  | op :: ops, p => op.keys r p ++ runKeys (op.apply r) ops p

/-- A change to a map that enters or removes the names `ks` only. -/
structure Touches (ks : List Bytes) (m m' : MapType) : Prop where
  kept : ∀ k, (∀ k' ∈ ks, caseKey k' ≠ caseKey k) → m'.find k = m.find k
  names : ∀ e ∈ m'.entries, e.1 ∈ m.entries.map Prod.fst ∨ e.1 ∈ ks

section

variable {m : MapType} {k : Bytes}

theorem touches_self (ks : List Bytes) (m : MapType) : Touches ks m m :=
  ⟨fun _ _ => rfl, fun _ he => .inl (List.mem_map_of_mem he)⟩

theorem touches_assign (m : MapType) (k v : Bytes) : Touches [k] m (m.assign k v) := by
  constructor
  case kept =>
    intro k' hk'
    rw [OrderedMap.find_assign, if_neg (Ne.symm (hk' k List.mem_cons_self))]
  case names =>
    intro e he
    rcases OrderedMap.fst_mem_assignList he with hk | hm
    · exact .inr (hk ▸ List.mem_cons_self)
    · exact .inl hm

theorem touches_erase (m : MapType) (k : Bytes) : Touches [k] m (m.erase k) := by
  constructor
  case kept =>
    intro k' hk'
    rw [OrderedMap.find_erase, if_neg (Ne.symm (hk' k List.mem_cons_self))]
  case names =>
    intro e he
    exact .inl (List.mem_map_of_mem (List.mem_of_mem_filter he))

theorem touches_insertAll (m : MapType) (es : List (Bytes × Bytes)) :
    Touches (es.map Prod.fst) m (m.insertAll es) := by
  constructor
  case kept =>
    intro k hk
    rw [OrderedMap.find_insertAll, List.find?_eq_none.mpr, Option.map_none, Option.or_none]
    intro e he
    simpa using hk e.1 (List.mem_map_of_mem he)
  case names =>
    intro e he
    exact (OrderedMap.fst_mem_insertAll he).symm

theorem touches_initQueryParam (r : HttpRequest) (p : Place) :
    Touches (Operation.initQueryParam.keys r p) (r.map p) (r.initQueryParam.map p) := by
  unfold HttpRequest.initQueryParam
  split
  · exact touches_self _ _
  · cases p with
    | headers => exact touches_self _ _
    | params => exact touches_insertAll _ _
    | cookies => exact touches_self _ _

theorem touches_initBodyParam (r : HttpRequest) (p : Place) :
    Touches (Operation.initBodyParam.keys r p) (r.map p) (r.initBodyParam.map p) := by
  unfold HttpRequest.initBodyParam
  split
  · exact touches_self _ _
  · split
    · cases p <;> exact touches_self _ _
    · cases p with
      | headers => exact touches_self _ _
      | params => exact touches_insertAll _ _
      | cookies => exact touches_self _ _

theorem touches_initCookies (r : HttpRequest) (p : Place) :
    Touches (Operation.initCookies.keys r p) (r.map p) (r.initCookies.map p) := by
  unfold HttpRequest.initCookies
  split
  · exact touches_self _ _
  · dsimp only
    split
    · cases p <;> exact touches_self _ _
    · cases p with
      | headers => exact touches_self _ _
      | params => exact touches_self _ _
      | cookies => exact touches_insertAll _ _

/-- What one operation does to each map. -/
theorem Operation.touches (op : Operation) (r : HttpRequest) (p : Place) :
    Touches (op.keys r p) (r.map p) ((op.apply r).map p) := by
  -- the map that is meant, and the two others
  cases op with
  | setHeader => cases p <;> first | exact touches_assign _ _ _ | exact touches_self _ _
  | setParam => cases p <;> first | exact touches_assign _ _ _ | exact touches_self _ _
  | setCookie => cases p <;> first | exact touches_assign _ _ _ | exact touches_self _ _
  | delHeader => cases p <;> first | exact touches_erase _ _ | exact touches_self _ _
  | delParam => cases p <;> first | exact touches_erase _ _ | exact touches_self _ _
  | delCookie => cases p <;> first | exact touches_erase _ _ | exact touches_self _ _
  | initQueryParam => exact touches_initQueryParam r p
  | initBodyParam => exact touches_initBodyParam r p
  | initCookies => exact touches_initCookies r p

end

/-! ## Runs -/

/-- An operation keeps the names of `K` apart: a name keeps its value unless one that is equal to it
is entered or removed, and a value is found only under names that are equal to its own. -/
structure KeepsApart (K : Place → Bytes → Prop) (r : HttpRequest) (op : Operation) : Prop where
  kept : ∀ p k, K p k → (∀ k' ∈ op.keys r p, ¬ EqualIgnoringCase k' k) →
    ((op.apply r).map p).find k = (r.map p).find k
  own : ∀ p k v, K p k → ((op.apply r).map p).find k = some v →
    ∃ e ∈ ((op.apply r).map p).entries, e.2 = v ∧ EqualIgnoringCase e.1 k

/-- No two names differ behind a zero. -/
def PlainKeys (K : Place → Bytes → Prop) : Prop :=
  ∀ p k k', K p k → K p k' → ¬ DifferBehindZero k k'

/-- The names in the maps are from `K`. -/
def KeysIn (K : Place → Bytes → Prop) (r : HttpRequest) : Prop :=
  ∀ p, ∀ e ∈ (r.map p).entries, K p e.1

section

variable {K : Place → Bytes → Prop} {r : HttpRequest} {op : Operation} {ops : List Operation}

theorem PlainKeys.equal (hK : PlainKeys K) {p : Place} {k k' : Bytes} (hk : K p k) (hk' : K p k')
    (h : caseKey k = caseKey k') : EqualIgnoringCase k k' := by
  have hiff := (equivalent_iff_iff k k').mpr (hK p k k' hk hk')
  exact hiff.mp ((equivalent_iff k k').mpr h)

theorem KeysIn.apply (h : KeysIn K r) (hop : ∀ p, ∀ k ∈ op.keys r p, K p k) :
    KeysIn K (op.apply r) := by
  intro p e he
  rcases (op.touches r p).names e he with hold | hnew
  · obtain ⟨e', he', hfst⟩ := List.mem_map.mp hold
    exact hfst ▸ h p e' he'
  · exact hop p e.1 hnew

theorem KeysIn.keepsApart (h : KeysIn K r) (hK : PlainKeys K)
    (hop : ∀ p, ∀ k ∈ op.keys r p, K p k) : KeepsApart K r op := by
  constructor
  case kept =>
    intro p k hk hne
    apply (op.touches r p).kept
    intro k' hk' heq
    exact hne k' hk' (hK.equal (hop p k' hk') hk heq)
  case own =>
    intro p k v hk hfind
    obtain ⟨e, he, hv⟩ := Option.map_eq_some_iff.mp hfind
    have hmem := List.mem_of_find?_eq_some he
    have hkey : caseKey e.1 = caseKey k := by simpa using List.find?_some he
    exact ⟨e, hmem, hv, hK.equal (h.apply hop p e hmem) hk hkey⟩

/-- The names in the maps are those of the run. -/
theorem KeysIn.afterAll (h : KeysIn K r) (hops : ∀ p, ∀ k ∈ runKeys r ops p, K p k) :
    KeysIn K (r.afterAll ops) := by
  induction ops generalizing r with
  | nil => exact h
  | cons op ops ih =>
    apply ih (r := op.apply r)
    · exact h.apply fun p k hk => hops p k (List.mem_append_left _ hk)
    · exact fun p k hk => hops p k (List.mem_append_right _ hk)

theorem runKeys_append (r : HttpRequest) (pre post : List Operation) (p : Place) :
    runKeys r (pre ++ post) p = runKeys r pre p ++ runKeys (r.afterAll pre) post p := by
  induction pre generalizing r with
  | nil => rfl
  | cons op pre ih =>
    rw [List.cons_append, runKeys, runKeys, ih, List.append_assoc]
    rfl

end

/-- **The comparison is a strict weak order.  It tells apart what is not equal ignoring case, but
for what differs behind a zero, and in a run without such names no operation mixes up two of
them.** -/
theorem names_apart_iff (a b : Bytes) :
    IsStrictWeakOrder Bytes caseInsensitiveLess ∧
    ((Equivalent a b ↔ EqualIgnoringCase a b) ↔ ¬ DifferBehindZero a b) ∧
    ∀ (K : Place → Bytes → Prop), PlainKeys K →
      ∀ (r : HttpRequest) (pre : List Operation) (op : Operation),
        (∀ p, (r.map p).entries = []) → (∀ p, ∀ k ∈ runKeys r (pre ++ [op]) p, K p k) →
        KeepsApart K (r.afterAll pre) op := by
  refine ⟨strictWeakOrder, equivalent_iff_iff a b, ?_⟩
  intro K hK r pre op hempty hkeys
  have hstart : KeysIn K r := by
    intro p e he
    rw [hempty] at he
    cases he
  have hpre : KeysIn K (r.afterAll pre) := by
    apply hstart.afterAll
    intro p k hk
    apply hkeys p k
    rw [runKeys_append]
    exact List.mem_append_left _ hk
  apply hpre.keepsApart hK
  intro p k hk
  apply hkeys p k
  rw [runKeys_append]
  exact List.mem_append_right _ (List.mem_append_left _ hk)

/-- The two names of a query with escaped zeros: the value of the second one is lost. -/
theorem not_apart_zero :
    Equivalent (urlDecode (ascii "a%00b") true) (urlDecode (ascii "a%00c") true) ∧
      ¬ EqualIgnoringCase (urlDecode (ascii "a%00b") true) (urlDecode (ascii "a%00c") true) ∧
      ({ query := ascii "a%00b=1&a%00c=2" } : HttpRequest).initQueryParam.params.find
        (urlDecode (ascii "a%00c") true) = some (ascii "1") := by
  refine ⟨(equivalent_iff _ _).mpr (by decide), by decide, ?_⟩
  rw [HttpRequest.initQueryParam, if_neg (by decide), OrderedMap.find_insertAll,
    parseParam_eq id (by decide)]
  decide

/-- A parameter that is set, and then a query with it and another one. -/
theorem keepsApart_query :
    KeepsApart (fun _ k => k ∈ [ascii "A", ascii "a", ascii "b"])
      (({ query := ascii "a=2&b=3" } : HttpRequest).afterAll [.setParam (ascii "A") (ascii "1")])
      .initQueryParam := by
  apply (names_apart_iff (ascii "A") (ascii "a")).2.2
  · have hplain : ∀ k ∈ [ascii "A", ascii "a", ascii "b"],
        ∀ k' ∈ [ascii "A", ascii "a", ascii "b"], ¬ DifferBehindZero k k' := by decide
    exact fun _ k k' hk hk' => hplain k hk k' hk'
  · intro p
    cases p <;> rfl
  · intro p
    cases p with
    | headers => exact fun k hk => absurd hk List.not_mem_nil
    | params =>
      show ∀ k ∈
        ascii "A" :: ((parseParam (ascii "a=2&b=3") '&'.toUInt8 id 0).map Prod.fst ++ []), _
      rw [parseParam_eq id (by decide)]
      decide
    | cookies => exact fun k hk => absurd hk List.not_mem_nil

end Luwu.Http
