import Luwu.Http.Accessors

/-!
# A query made of pairs

Names and values that `UrlEncode` has written, joined by `=` and `&`, and what `getParam` makes of
them.  The encoder leaves `=` as it is, which ends a name.
-/

namespace Luwu.Http

open Lib StdString StringUtil

/-- `UrlEncode (k) + '=' + UrlEncode (v)`. -/
def encodePair (e : Bytes × Bytes) : Bytes :=
  urlEncode e.1 true ++ '='.toUInt8 :: urlEncode e.2 true

/-- The query that carries some pairs. -/
def queryOf (pairs : List (Bytes × Bytes)) : Bytes :=
  ['&'.toUInt8].intercalate (pairs.map encodePair)

/-! ## What is read of a pair -/

theorem ampersand_not_mem_urlEncode (s : Bytes) : '&'.toUInt8 ∉ urlEncode s true := by
  have hchar : ∀ c, '&'.toUInt8 ∉ encodeChar true c := by
    apply forall_byte
    decide +kernel
  rw [urlEncode_eq]
  intro h
  obtain ⟨c, -, hmem⟩ := List.mem_flatMap.mp h
  exact hchar c hmem

theorem ampersand_not_mem_encodePair (e : Bytes × Bytes) : '&'.toUInt8 ∉ encodePair e := by
  rw [encodePair, List.mem_append, List.mem_cons]
  refine not_or.mpr ⟨ampersand_not_mem_urlEncode e.1, not_or.mpr ⟨by decide, ?_⟩⟩
  exact ampersand_not_mem_urlEncode e.2

theorem equals_mem_encodePair (e : Bytes × Bytes) : '='.toUInt8 ∈ encodePair e :=
  List.mem_append_right _ List.mem_cons_self

theorem equals_not_mem_urlEncode {s : Bytes} (h : '='.toUInt8 ∉ s) :
    '='.toUInt8 ∉ urlEncode s true := by
  have hencoded : Encoded true (s.flatMap (encodeChar true)) := encoded_flatMap h
  rw [urlEncode_eq]
  exact hencoded.not_mem_equals

/-- A name without an `=` comes back, and the value with it. -/
theorem pairOf_encodePair {e : Bytes × Bytes} (h : '='.toUInt8 ∉ e.1) :
    pairOf id (encodePair e) = e := by
  rw [encodePair, pairOf_append (equals_not_mem_urlEncode h)]
  show (urlDecode (urlEncode e.1 true) true, urlDecode (urlEncode e.2 true) true) = e
  rw [urlDecode_urlEncode, urlDecode_urlEncode]

/-- Of a name only what stands in front of its first `=` is read. -/
theorem equals_not_mem_pairOf (e : Bytes × Bytes) :
    '='.toUInt8 ∉ (pairOf id (encodePair e)).1 := by
  by_cases hmem : '='.toUInt8 ∈ e.1
  · obtain ⟨name, rest, hkey, hname⟩ := List.eq_append_cons_of_mem hmem
    have hequals : encodeChar true '='.toUInt8 = ['='.toUInt8] := by decide
    have hencode : encodePair e = urlEncode name true ++ '='.toUInt8 ::
        (urlEncode rest true ++ '='.toUInt8 :: urlEncode e.2 true) := by
      rw [encodePair, hkey, urlEncode_eq, List.flatMap_append, List.flatMap_cons, hequals,
        ← urlEncode_eq, ← urlEncode_eq]
      simp only [List.append_assoc, List.cons_append, List.nil_append]
    rw [hencode, pairOf_append (equals_not_mem_urlEncode hname)]
    show '='.toUInt8 ∉ urlDecode (urlEncode name true) true
    rw [urlDecode_urlEncode]
    exact hname
  · rw [pairOf_encodePair hmem]
    exact hmem

/-- **The query is read pair by pair.** -/
theorem parseParam_queryOf (pairs : List (Bytes × Bytes)) :
    parseParam (queryOf pairs) '&'.toUInt8 id 0 = pairs.map fun e => pairOf id (encodePair e) := by
  cases pairs with
  | nil => exact parseParam_nil
  | cons e es =>
    have hplain : ∀ piece ∈ (e :: es).map encodePair, '&'.toUInt8 ∉ piece := by
      intro piece hpiece
      obtain ⟨e', -, rfl⟩ := List.mem_map.mp hpiece
      exact ampersand_not_mem_encodePair e'
    have hequals : ∀ piece ∈ (e :: es).map encodePair, '='.toUInt8 ∈ piece := by
      intro piece hpiece
      obtain ⟨e', -, rfl⟩ := List.mem_map.mp hpiece
      exact equals_mem_encodePair e'
    have hsplit : (queryOf (e :: es)).splitOn '&'.toUInt8 = (e :: es).map encodePair :=
      List.splitOn_intercalate _ hplain (List.cons_ne_nil _ _)
    have hfront : ((e :: es).map encodePair).Pairwise fun a b =>
        '='.toUInt8 ∈ b → '='.toUInt8 ∈ a :=
      List.pairwise_of_forall_mem_list fun a ha _ _ _ => hequals a ha
    have hall : ((e :: es).map encodePair).filter (fun piece => decide ('='.toUInt8 ∈ piece)) =
        (e :: es).map encodePair := by
      rw [List.filter_eq_self]
      intro piece hpiece
      exact decide_eq_true (hequals piece hpiece)
    rw [parseParam_eq id separator_ampersand.ne_equals, hsplit,
      (separator_ampersand.joined_iff _).1 hfront, pairsOf, hall, List.map_map]
    rfl

/-! ## What the accessors return -/

/-- `getParam` returns the value of every pair, whatever its default is, and there is no other
parameter. -/
structure Carried (r : HttpRequest) (pairs : List (Bytes × Bytes)) : Prop where
  value : ∀ e ∈ pairs, ∀ dflt, (r.getParam e.1 dflt).1 = e.2
  only : ∀ key val, (r.hasParam key).1 = some val → ∃ e ∈ pairs, caseEq key e.1 ∧ val = e.2

theorem initBodyParam_params (r : HttpRequest) (hbody : r.IsForm → '='.toUInt8 ∉ r.body) :
    r.initBodyParam.params = r.params := by
  unfold HttpRequest.initBodyParam
  split
  · rfl
  · split
    · rfl
    · next hform =>
      have hnone : parseParam r.body '&'.toUInt8 id 0 = [] :=
        parseParam_none (find_none (show r.body = [] ++ r.body from rfl) (hbody (not_not.mp hform)))
      show OrderedMap.insertAll _ (parseParam r.body '&'.toUInt8 id 0) = _
      rw [hnone]
      rfl

/-- The parameters of a request whose body adds none. -/
theorem initParams_find (r : HttpRequest) (hstatus : r.status = 0) (hparams : r.params = .empty)
    (hbody : r.IsForm → '='.toUInt8 ∉ r.body) (key : Bytes) :
    r.initParams.params.find key =
      ((parseParam r.query '&'.toUInt8 id 0).find? fun e => caseKey e.1 = caseKey key).map
        Prod.snd := by
  have hquery : r.initQueryParam =
      { r with params := OrderedMap.empty.insertAll (parseParam r.query '&'.toUInt8 id 0)
               status := r.status ||| 0x1 } := by
    rw [HttpRequest.initQueryParam, if_neg (by rw [hstatus]; decide), hparams]
  have hsame : r.initParams.params = r.initQueryParam.params := by
    refine initBodyParam_params _ ?_
    rw [hquery]
    exact hbody
  rw [hsame, hquery, OrderedMap.find_insertAll, OrderedMap.find_empty, Option.none_or]
  congr!

/-- Among pairs with different names, the name of one finds it. -/
theorem find?_of_mem {pairs : List (Bytes × Bytes)}
    (hpairs : pairs.Pairwise fun a b => caseKey a.1 ≠ caseKey b.1) {e : Bytes × Bytes}
    (he : e ∈ pairs) : pairs.find? (fun e' => caseKey e'.1 = caseKey e.1) = some e := by
  induction pairs with
  | nil => cases he
  | cons e' pairs ih =>
    obtain ⟨hhead, htail⟩ := List.pairwise_cons.mp hpairs
    rcases List.mem_cons.mp he with rfl | he
    · exact List.find?_cons_of_pos (by simp)
    · rw [List.find?_cons_of_neg (by simpa using hhead e he), ih htail he]

theorem tolower_equals : ∀ c, tolower c = '='.toUInt8 → c = '='.toUInt8 := by
  apply forall_byte
  decide +kernel

/-- **A query made of pairs gives their values back, and nothing else, just where no name has an
`=` in it.** -/
theorem query_carries_iff (r : HttpRequest) (pairs : List (Bytes × Bytes))
    (hquery : r.query = queryOf pairs) (hstatus : r.status = 0) (hparams : r.params = .empty)
    (hbody : r.IsForm → '='.toUInt8 ∉ r.body) (hzero : ∀ e ∈ pairs, (0 : UInt8) ∉ e.1)
    (hpairs : pairs.Pairwise fun a b => a.1.map tolower ≠ b.1.map tolower) :
    Carried r pairs ↔ ∀ e ∈ pairs, '='.toUInt8 ∉ e.1 := by
  have hfind := initParams_find r hstatus hparams hbody
  rw [hquery, parseParam_queryOf] at hfind
  constructor
  · intro h e he hmem
    have hkey := mem_caseKey_of_mem (by decide) (hzero e he) hmem
    -- no name that is read has an `=`
    have hnone : r.initParams.params.find e.1 = none := by
      rw [hfind, Option.map_eq_none_iff, List.find?_eq_none]
      intro e' he'
      obtain ⟨e'', -, rfl⟩ := List.mem_map.mp he'
      have hno := not_mem_caseKey tolower_equals (equals_not_mem_pairOf e'')
      simpa using fun heq : caseKey _ = caseKey e.1 => hno (heq ▸ hkey)
    have hdflt (dflt : Bytes) : dflt = e.2 := by
      have hvalue := h.value e he dflt
      rwa [HttpRequest.getParam, hnone] at hvalue
    exact absurd ((hdflt []).trans (hdflt [0]).symm) (by decide)
  · intro h
    have hsame : (pairs.map fun e => pairOf id (encodePair e)) = pairs := by
      rw [List.map_congr_left fun e he => pairOf_encodePair (h e he), List.map_id']
    rw [hsame] at hfind
    constructor
    · intro e he dflt
      have hkeys : pairs.Pairwise fun a b => caseKey a.1 ≠ caseKey b.1 := by
        refine hpairs.imp_of_mem fun {a b} ha hb hne heq => hne ?_
        rw [caseKey_eq (hzero a ha), caseKey_eq (hzero b hb)] at heq
        exact List.map_injective_iff.mpr (fun _ _ => UInt8.toNat_inj.mp) heq
      rw [HttpRequest.getParam]
      dsimp only
      rw [hfind, find?_of_mem hkeys he]
      rfl
    · intro key val hval
      rw [HttpRequest.hasParam] at hval
      dsimp only at hval
      rw [hfind, Option.map_eq_some_iff] at hval
      obtain ⟨e, he, rfl⟩ := hval
      have hkey : caseKey e.1 = caseKey key := by simpa using List.find?_some he
      exact ⟨e, List.mem_of_find?_eq_some he, hkey.symm, rfl⟩

/-- Two pairs, with delimiters in a value. -/
theorem query_carries_two :
    Carried { query := queryOf [(ascii "a", ascii "1&2=3"), (ascii "b", [])] }
      [(ascii "a", ascii "1&2=3"), (ascii "b", [])] :=
  (query_carries_iff _ _ rfl rfl rfl (by decide) (by decide) (by decide)).mpr (by decide)

/-- The parameter of the name `a=b` is called `a`. -/
theorem name_cut_at_equals :
    queryOf [(ascii "a=b", ascii "1")] = ascii "a=b=1" ∧
      (({ query := ascii "a=b=1" } : HttpRequest).getParam (ascii "a=b") []).1 = [] ∧
      ¬ Carried { query := ascii "a=b=1" } [(ascii "a=b", ascii "1")] := by
  have hread : (({ query := ascii "a=b=1" } : HttpRequest).getParam (ascii "a=b") []).1 = [] := by
    rw [HttpRequest.getParam]
    dsimp only
    rw [initParams_find _ rfl rfl (by decide), parseParam_eq id (by decide)]
    decide
  refine ⟨by decide, hread, fun h => ?_⟩
  have hvalue := h.value _ List.mem_cons_self []
  rw [hread] at hvalue
  exact absurd hvalue (by decide)

end Luwu.Http
