import Mathlib.Logic.Function.Basic
import Luwu.Lib.Bytes

/-!
# Loading configuration files

`Config::loadFromYaml` lists the nodes of a YAML document with their dotted paths (`listAllMember`)
and passes each of them to the variable registered under its path.

A key contributes its `Scalar ()`, which is empty for a key that is not a scalar.  The text that
yaml-cpp emits for a node that is not a scalar is a parameter.
-/

namespace Luwu

namespace Yaml

inductive Node where
  | null
  | scalar (text : Bytes)
  | sequence (items : List Node)
  | map (entries : List (Node × Node))

/-- `Scalar ()`. -/
def Node.text : Node → Bytes
  | null => []
  | scalar text => text
  | sequence _ => []
  | map _ => []

end Yaml

namespace Config

open Yaml

/-- `"qwertyuiopasdfghjklzxcvbnm._0123456789"`. -/
def nameChars : Bytes := ascii "qwertyuiopasdfghjklzxcvbnm._0123456789"

/-- `find_first_not_of (…) == npos`. -/
def validName (name : Bytes) : Bool := name.all fun c => nameChars.contains c

/-- `prefix.empty () ? key : prefix + "." + key`. -/
def dotted (path key : Bytes) : Bytes := if path = [] then key else path ++ ascii "." ++ key

mutual

/-- `listAllMember`: what it appends to `output`. -/
def listAllMember (path : Bytes) : Node → List (Bytes × Node)
  | .null => if validName path then [(path, .null)] else []
  | .scalar text => if validName path then [(path, .scalar text)] else []
  | .map entries =>
    if validName path then (path, .map entries) :: listEntries path entries else []
  | .sequence items =>
    if validName path then (path, .sequence items) :: listItems path items else []

/-- The loop over the entries of a map. -/
def listEntries (path : Bytes) : List (Node × Node) → List (Bytes × Node)
  | [] => []
  | (key, value) :: entries =>
    listAllMember (dotted path key.text) value ++ listEntries path entries

/-- The loop over the items of a sequence, which looks at those that are maps. -/
def listItems (path : Bytes) : List Node → List (Bytes × Node)
  | [] => []
  | .map entries :: items => listEntries path entries ++ listItems path items
  | .null :: items => listItems path items
  | .scalar _ :: items => listItems path items
  | .sequence _ :: items => listItems path items

end

/-! ## The nodes of a document -/

mutual

/-- The nodes below a node in pre-order, each with the keys on the way to it. -/
def nodes : Node → List (List Bytes × Node)
  | .null => [([], .null)]
  | .scalar text => [([], .scalar text)]
  | .map entries => ([], .map entries) :: entryNodes entries
  | .sequence items => ([], .sequence items) :: itemNodes items

def entryNodes : List (Node × Node) → List (List Bytes × Node)
  | [] => []
  | (key, value) :: entries =>
    (nodes value).map (fun e => (key.text :: e.1, e.2)) ++ entryNodes entries

def itemNodes : List Node → List (List Bytes × Node)
  | [] => []
  | .map entries :: items => entryNodes entries ++ itemNodes items
  | .null :: items => itemNodes items
  | .scalar _ :: items => itemNodes items
  | .sequence _ :: items => itemNodes items

end

/-- `Reaches n keys m`: a way from `n` to `m` through the keys of maps, and of maps that are items
of sequences. -/
inductive Reaches : Node → List Bytes → Node → Prop where
  | here (n : Node) : Reaches n [] n
  | entry {entries : List (Node × Node)} {key value m : Node} {keys : List Bytes}
      (h : (key, value) ∈ entries) (rest : Reaches value keys m) :
      Reaches (.map entries) (key.text :: keys) m
  | item {items : List Node} {entries : List (Node × Node)} {key value m : Node}
      {keys : List Bytes} (hitem : .map entries ∈ items) (h : (key, value) ∈ entries)
      (rest : Reaches value keys m) : Reaches (.sequence items) (key.text :: keys) m

/-- The dotted path of a list of keys, from `path` on. -/
def extend (path : Bytes) (keys : List Bytes) : Bytes := keys.foldl dotted path

/-- The dotted path of a list of keys. -/
def dottedPath (keys : List Bytes) : Bytes := extend [] keys

/-- The nodes of a document with their dotted paths, in pre-order. -/
def members (root : Node) : List (Bytes × Node) :=
  (nodes root).map fun e => (dottedPath e.1, e.2)

theorem validName_of_dotted {path key : Bytes} (h : validName (dotted path key) = true) :
    validName path = true := by
  unfold dotted at h
  split at h
  · rename_i hnil
    rw [hnil]
    rfl
  · unfold validName at h ⊢
    rw [List.all_append, List.all_append] at h
    simp only [Bool.and_eq_true] at h
    exact h.1.1

theorem validName_of_extend {path : Bytes} {keys : List Bytes}
    (h : validName (extend path keys) = true) : validName path = true := by
  induction keys generalizing path with
  | nil => exact h
  | cons key keys ih => exact validName_of_dotted (ih h)

/-- The nodes `es` with their dotted paths from `path` on, as far as these are valid names. -/
def validMembers (path : Bytes) (es : List (List Bytes × Node)) : List (Bytes × Node) :=
  (es.map fun e => (extend path e.1, e.2)).filter fun e => validName e.1

theorem validMembers_of_invalid {path : Bytes} (h : validName path = false)
    (es : List (List Bytes × Node)) : validMembers path es = [] := by
  unfold validMembers
  apply List.filter_eq_nil_iff.mpr
  intro e he
  obtain ⟨e', -, rfl⟩ := List.mem_map.mp he
  intro hvalid
  rw [validName_of_extend hvalid] at h
  cases h

theorem validMembers_append (path : Bytes) (es es' : List (List Bytes × Node)) :
    validMembers path (es ++ es') = validMembers path es ++ validMembers path es' := by
  unfold validMembers
  rw [List.map_append, List.filter_append]

theorem validMembers_below (path key : Bytes) (es : List (List Bytes × Node)) :
    validMembers path (es.map fun e => (key :: e.1, e.2)) = validMembers (dotted path key) es := by
  unfold validMembers
  rw [List.map_map]
  rfl

theorem validMembers_cons {path : Bytes} (n : Node) (es : List (List Bytes × Node)) :
    validMembers path (([], n) :: es) =
      if validName path then (path, n) :: validMembers path es else [] := by
  cases h : validName path with
  | true =>
    unfold validMembers
    simp only [List.map_cons, List.filter_cons, extend, List.foldl_nil, h, if_true]
  | false => exact validMembers_of_invalid h _

mutual

theorem listAllMember_eq (path : Bytes) : ∀ n : Node,
    listAllMember path n = validMembers path (nodes n)
  | .null => by
    rw [listAllMember, nodes, validMembers_cons]
    rfl
  | .scalar text => by
    rw [listAllMember, nodes, validMembers_cons]
    rfl
  | .map entries => by rw [listAllMember, nodes, validMembers_cons, listEntries_eq path entries]
  | .sequence items => by rw [listAllMember, nodes, validMembers_cons, listItems_eq path items]

theorem listEntries_eq (path : Bytes) : ∀ entries : List (Node × Node),
    listEntries path entries = validMembers path (entryNodes entries)
  | [] => rfl
  | (key, value) :: entries => by
    rw [listEntries, entryNodes, validMembers_append, validMembers_below,
      listAllMember_eq (dotted path key.text) value, listEntries_eq path entries]

theorem listItems_eq (path : Bytes) : ∀ items : List Node,
    listItems path items = validMembers path (itemNodes items)
  | [] => rfl
  | .map entries :: items => by
    rw [listItems, itemNodes, validMembers_append, listEntries_eq path entries,
      listItems_eq path items]
  | .null :: items => by rw [listItems, itemNodes, listItems_eq path items]
  | .scalar _ :: items => by rw [listItems, itemNodes, listItems_eq path items]
  | .sequence _ :: items => by rw [listItems, itemNodes, listItems_eq path items]

end

mutual

theorem mem_nodes {m : Node} : ∀ {n : Node} {keys : List Bytes},
    (keys, m) ∈ nodes n ↔ Reaches n keys m
  | .null, keys => by
    rw [nodes, List.mem_singleton]
    constructor
    · intro h
      cases h
      exact .here _
    · intro h
      cases h
      rfl
  | .scalar text, keys => by
    rw [nodes, List.mem_singleton]
    constructor
    · intro h
      cases h
      exact .here _
    · intro h
      cases h
      rfl
  | .map entries, keys => by
    rw [nodes, List.mem_cons, mem_entryNodes]
    constructor
    · intro h
      rcases h with heq | ⟨key, value, keys', hmem, hrest, rfl⟩
      · cases heq
        exact .here _
      · exact .entry hmem hrest
    · intro h
      cases h with
      -- the node itself, or one below it
      | here => exact .inl rfl
      | entry hmem hrest => exact .inr ⟨_, _, _, hmem, hrest, rfl⟩
  | .sequence items, keys => by
    rw [nodes, List.mem_cons, mem_itemNodes]
    constructor
    · intro h
      rcases h with heq | ⟨entries, key, value, keys', hitem, hmem, hrest, rfl⟩
      · cases heq
        exact .here _
      · exact .item hitem hmem hrest
    · intro h
      cases h with
      | here => exact .inl rfl
      | item hitem hmem hrest => exact .inr ⟨_, _, _, _, hitem, hmem, hrest, rfl⟩

theorem mem_entryNodes {m : Node} : ∀ {entries : List (Node × Node)} {keys : List Bytes},
    (keys, m) ∈ entryNodes entries ↔
      ∃ key value keys', (key, value) ∈ entries ∧ Reaches value keys' m ∧ keys = key.text :: keys'
  | [], keys => by simp [entryNodes]
  | (key, value) :: entries, keys => by
    rw [entryNodes, List.mem_append, List.mem_map, mem_entryNodes]
    constructor
    · intro h
      rcases h with ⟨⟨keys', m'⟩, he, heq⟩ | ⟨key', value', keys', hmem, hrest, heq⟩
      · cases heq
        exact ⟨key, value, keys', List.mem_cons_self, mem_nodes.mp he, rfl⟩
      · exact ⟨key', value', keys', List.mem_cons_of_mem _ hmem, hrest, heq⟩
    · intro h
      obtain ⟨key', value', keys', hmem, hrest, heq⟩ := h
      rcases List.mem_cons.mp hmem with hhead | hmem
      · cases hhead
        exact .inl ⟨(keys', m), mem_nodes.mpr hrest, by rw [heq]⟩
      · exact .inr ⟨key', value', keys', hmem, hrest, heq⟩

theorem mem_itemNodes {m : Node} : ∀ {items : List Node} {keys : List Bytes},
    (keys, m) ∈ itemNodes items ↔
      ∃ entries key value keys', .map entries ∈ items ∧ (key, value) ∈ entries ∧
        Reaches value keys' m ∧ keys = key.text :: keys'
  | [], keys => by simp [itemNodes]
  | .map entries :: items, keys => by
    rw [itemNodes, List.mem_append, mem_entryNodes, mem_itemNodes]
    constructor
    · intro h
      rcases h with ⟨key, value, keys', hmem, hrest, heq⟩ |
        ⟨entries', key, value, keys', hitem, hmem, hrest, heq⟩
      · exact ⟨entries, key, value, keys', List.mem_cons_self, hmem, hrest, heq⟩
      · exact ⟨entries', key, value, keys', List.mem_cons_of_mem _ hitem, hmem, hrest, heq⟩
    · intro h
      obtain ⟨entries', key, value, keys', hitem, hmem, hrest, heq⟩ := h
      -- in the first item or in a later one
      rcases List.mem_cons.mp hitem with hhead | hitem
      · cases hhead
        exact .inl ⟨key, value, keys', hmem, hrest, heq⟩
      · exact .inr ⟨entries', key, value, keys', hitem, hmem, hrest, heq⟩
  | .null :: items, keys => by
    rw [itemNodes, mem_itemNodes]
    simp
  | .scalar _ :: items, keys => by
    rw [itemNodes, mem_itemNodes]
    simp
  | .sequence _ :: items, keys => by
    rw [itemNodes, mem_itemNodes]
    simp

end

/-! ## The registry -/

structure ConfigVarBase where
  name : Bytes
deriving DecidableEq, Repr

def tolower (c : UInt8) : UInt8 := if 65 ≤ c ∧ c ≤ 90 then c + 32 else c

def ConfigVarBase.new (name : Bytes) : ConfigVarBase := { name := name.map tolower }

/-- `getData ()`. -/
abbrev ConfigVarMap := Bytes → Option ConfigVarBase

/-- `lookup (name, default_val)` for a variable of the type that may be registered under the name;
`none` when it throws `invalid_argument`. -/
def lookup (data : ConfigVarMap) (name : Bytes) : Option ConfigVarMap :=
  match data name with
  | some _ => some data
  | none =>
    if validName name then some (Function.update data name (some (.new name))) else none

/-- The registry after a sequence of calls of `lookup`, by callers that catch what it throws. -/
def registry (names : List Bytes) : ConfigVarMap :=
  names.foldl (fun data name => (lookup data name).getD data) fun _ => none

def lookupBase (data : ConfigVarMap) (name : Bytes) : Option ConfigVarBase := data name

/-- The string that `loadFromYaml` makes of a node. -/
def nodeText (emit : Node → Bytes) (node : Node) : Bytes :=
  match node with
  | .scalar text => text
  | _ => emit node

/-- One turn of the loop of `loadFromYaml`: the call `var->fromString (val)`, if there is one. -/
def loadMember (data : ConfigVarMap) (emit : Node → Bytes) (i : Bytes × Node) :
    Option (ConfigVarBase × Bytes) :=
  if i.1 = [] then none
  else (lookupBase data (i.1.map tolower)).map fun var => (var, nodeText emit i.2)

/-- `loadFromYaml`: the calls `var->fromString (val)`, in their order. -/
def loadFromYaml (data : ConfigVarMap) (emit : Node → Bytes) (root : Node) :
    List (ConfigVarBase × Bytes) :=
  (listAllMember [] root).filterMap (loadMember data emit)

theorem tolower_of_nameChars : ∀ c ∈ nameChars, tolower c = c := by decide

theorem map_tolower {name : Bytes} (h : validName name = true) : name.map tolower = name := by
  have hid : ∀ c ∈ name, tolower c = c := by
    intro c hc
    have hchar := List.all_eq_true.mp h c hc
    exact tolower_of_nameChars c (by simpa using hchar)
  rw [List.map_congr_left hid, List.map_id']

/-- A registered variable has the name it is registered under, and the name is valid. -/
def Named (data : ConfigVarMap) : Prop :=
  ∀ name var, data name = some var → var.name = name ∧ validName name = true

theorem named_lookup {data data' : ConfigVarMap} {name : Bytes} (h : Named data)
    (hl : lookup data name = some data') : Named data' := by
  unfold lookup at hl
  split at hl
  · cases hl
    exact h
  · split at hl
    · rename_i hvalid
      cases hl
      intro name' var hvar
      by_cases hn : name' = name
      · rw [hn, Function.update_self] at hvar
        cases hvar
        rw [hn]
        exact ⟨map_tolower hvalid, hvalid⟩
      · rw [Function.update_of_ne hn] at hvar
        exact h name' var hvar
    · cases hl

theorem named_registry (names : List Bytes) : Named (registry names) := by
  unfold registry
  have hstart : Named fun _ => none := fun name var h => by cases h
  generalize (fun _ => none : ConfigVarMap) = data at hstart
  induction names generalizing data with
  | nil => exact hstart
  | cons name names ih =>
    rw [List.foldl_cons]
    apply ih
    cases hl : lookup data name with
    | none => exact hstart
    | some data' => exact named_lookup hstart hl

/-! ## Which variables are loaded -/

variable {data : ConfigVarMap} {emit : Node → Bytes} {root : Node}

theorem validName_of_mem {e : Bytes × Node} (h : e ∈ listAllMember [] root) :
    validName e.1 = true := by
  rw [listAllMember_eq, validMembers, List.mem_filter] at h
  exact h.2

/-- The call for a listed member, if its path is the name of a variable and not empty. -/
def callFor (data : ConfigVarMap) (emit : Node → Bytes) (i : Bytes × Node) :
    Option (ConfigVarBase × Bytes) :=
  if i.1 = [] then none else (data i.1).map fun var => (var, nodeText emit i.2)

/-- Lower-casing changes no listed path. -/
theorem loadFromYaml_eq :
    loadFromYaml data emit root = (listAllMember [] root).filterMap (callFor data emit) := by
  unfold loadFromYaml
  apply List.filterMap_congr
  intro i hi
  unfold loadMember lookupBase
  rw [map_tolower (validName_of_mem hi)]
  rfl

theorem callFor_named (h : Named data) {i : Bytes × Node} {c : ConfigVarBase × Bytes}
    (hc : callFor data emit i = some c) : i.1 = c.1.name := by
  unfold callFor at hc
  split at hc
  · cases hc
  · obtain ⟨v, hv, rfl⟩ := Option.map_eq_some_iff.mp hc
    exact (h _ _ hv).1.symm

theorem filter_loadFromYaml (h : Named data) {name : Bytes} {var : ConfigVarBase}
    (hvar : data name = some var) (hname : name ≠ []) :
    (loadFromYaml data emit root).filter (fun c => c.1 = var) =
      ((listAllMember [] root).filter fun i => i.1 = name).map fun i =>
        (var, nodeText emit i.2) := by
  rw [loadFromYaml_eq]
  generalize listAllMember [] root = members
  induction members with
  | nil => rfl
  | cons i members ih =>
    by_cases hi : i.1 = name
    · have hcall : callFor data emit i = some (var, nodeText emit i.2) := by
        unfold callFor
        rw [hi, if_neg hname, hvar]
        rfl
      rw [List.filterMap_cons_some hcall, List.filter_cons_of_pos (by simp),
        List.filter_cons_of_pos (by simpa using hi), List.map_cons, ih]
    · rw [List.filter_cons_of_neg (by simpa using hi)]
      cases hcall : callFor data emit i with
      | none => rw [List.filterMap_cons_none hcall, ih]
      | some c =>
        -- the variable called is registered under another name
        have hne : c.1 ≠ var := by
          intro heq
          have hnamed := callFor_named h hcall
          rw [heq, (h _ _ hvar).1] at hnamed
          exact hi hnamed
        rw [List.filterMap_cons_some hcall, List.filter_cons_of_neg (by simpa using hne), ih]

/-- **Loading a document.**  The members listed are the nodes that can be reached through the keys
of maps and of maps in sequences, in pre-order, as far as their dotted paths are valid names.  Each
of them whose path is the name of a registered variable and not empty is passed to that variable, in
this order, and nothing else is. -/
theorem loads (names : List Bytes) (emit : Node → Bytes) (root : Node) :
    listAllMember [] root = (members root).filter (fun e => validName e.1) ∧
      (∀ keys m, (keys, m) ∈ nodes root ↔ Reaches root keys m) ∧
      loadFromYaml (registry names) emit root =
        (listAllMember [] root).filterMap (callFor (registry names) emit) ∧
      ∀ name var, registry names name = some var → name ≠ [] →
        var.name = name ∧
          (loadFromYaml (registry names) emit root).filter (fun c => c.1 = var) =
            ((listAllMember [] root).filter fun i => i.1 = name).map
              fun i => (var, nodeText emit i.2) := by
  refine ⟨listAllMember_eq [] root, fun keys m => mem_nodes, loadFromYaml_eq, ?_⟩
  intro name var hvar hname
  have hnamed := named_registry names
  exact ⟨(hnamed name var hvar).1, filter_loadFromYaml hnamed hvar hname⟩

/-- The document `{a: 1, B: 2}` and a variable `a`. -/
theorem loads_one :
    (loadFromYaml (registry [[97]]) (fun _ => [])
        (.map [(.scalar [97], .scalar [49]), (.scalar [66], .scalar [50])])).filter
          (fun c => c.1 = ⟨[97]⟩) = [(⟨[97]⟩, [49])] :=
  ((loads [[97]] (fun _ => [])
    (.map [(.scalar [97], .scalar [49]), (.scalar [66], .scalar [50])])).2.2.2
    [97] ⟨[97]⟩ rfl (by decide)).2.trans (by rfl)

/-- A variable under the empty name: the root is listed under it, and not passed to it. -/
theorem loads_empty_name :
    ¬ ∀ (names : List Bytes) (emit : Node → Bytes) (root : Node) (name : Bytes)
        (var : ConfigVarBase), registry names name = some var →
      (loadFromYaml (registry names) emit root).filter (fun c => c.1 = var) =
        ((listAllMember [] root).filter fun i => i.1 = name).map
          fun i => (var, nodeText emit i.2) := by
  intro h
  have hroot := h [[]] (fun _ => []) (.scalar [49]) [] (.new []) rfl
  exact absurd hroot (by decide)

end Config

end Luwu
