import Mathlib.Data.List.Lex
import Mathlib.Logic.Function.Basic
import Luwu.Config.Load
import Luwu.Lib.OrderedSet
import Luwu.Lib.Run

/-!
# The configuration of the loggers

The sets of `LoggerDefine` that `LexicalCast` makes of a YAML document, and the listener with which
`LogInit` brings the loggers in line with a new set.  yaml-cpp is a parameter.  The message that the
listener logs first changes the configuration of no logger and is left out.
-/

namespace Luwu

open Lib

/-! ## Definitions -/

/-- `LogLevel::Level`. -/
inductive LogLevel where
  | unknown
  | debug
  | info
  | warn
  | error
  | fatal
deriving DecidableEq

def LogLevel.fromString (str : Bytes) : LogLevel :=
  if str = ascii "DEBUG" then .debug
  else if str = ascii "INFO" then .info
  else if str = ascii "WARN" then .warn
  else if str = ascii "ERROR" then .error
  else if str = ascii "FATAL" then .fatal
  else .unknown

structure LogAppenderDefine where
  /-- 1 File, 2 Stdout. -/
  type : Int := 0
  pattern : Bytes := []
  file : Bytes := []
deriving DecidableEq

structure LoggerDefine where
  name : Bytes := []
  level : LogLevel := .unknown
  appenders : List LogAppenderDefine := []
deriving DecidableEq

/-- What `operator<` of two names compares. -/
def nameKey (name : Bytes) : List Nat := name.map UInt8.toNat

/-- `operator<`. -/
def LoggerDefine.before (d oth : LoggerDefine) : Bool := decide (nameKey d.name < nameKey oth.name)

theorem LoggerDefine.before_trans {a b c : LoggerDefine} (hab : a.before b = true)
    (hbc : b.before c = true) : a.before c = true :=
  decide_eq_true (lt_trans (of_decide_eq_true hab) (of_decide_eq_true hbc))

/-- `std::set<LoggerDefine>`. -/
structure LoggerSet where
  defs : List LoggerDefine
  sorted : OrderedSet.Sorted LoggerDefine.before defs
deriving DecidableEq

namespace LoggerSet

def empty : LoggerSet := ⟨[], List.Pairwise.nil⟩

def insert (s : LoggerSet) (d : LoggerDefine) : LoggerSet :=
  ⟨OrderedSet.insert LoggerDefine.before s.defs d,
    OrderedSet.insert_sorted_of_trans LoggerDefine.before_trans s.sorted⟩

/-- What `find (d)` points to, with no result for `end ()`. -/
def find (s : LoggerSet) (d : LoggerDefine) : Option LoggerDefine :=
  (OrderedSet.find LoggerDefine.before s.defs d).bind fun i => s.defs[i]?

end LoggerSet

/-! ## Reading them from YAML -/

/-- What the conversions use of yaml-cpp; a call has no result when it throws. -/
structure YamlCpp where
  Node : Type
  /-- `YAML::Load (text)`. -/
  load : Bytes → Option Node
  /-- `ss << node`. -/
  emit : Node → Bytes
  /-- `node[key]`, which is `none` when it is not defined. -/
  field : Node → Bytes → Option (Option Node)
  /-- `node.as<std::string> ()`. -/
  asString : Node → Option Bytes
  /-- What a loop over `node` goes through. -/
  items : Node → List Node

section

variable (yaml : YamlCpp)

/-- `node[key].as<std::string> ()`. -/
def YamlCpp.string (node : yaml.Node) (key : Bytes) : Option Bytes :=
  (yaml.field node key).join.bind yaml.asString

/-- `node[key].as<std::string> ()`, or the empty string when there is no such node. -/
def YamlCpp.stringOrEmpty (node : yaml.Node) (key : Bytes) : Option Bytes := do
  let some value ← yaml.field node key | return []
  yaml.asString value

/-- The body of the loop over `node["appenders"]`: the definition that it appends, if any. -/
def castAppender (appender : yaml.Node) : Option (Option LogAppenderDefine) := do
  let some typeNode ← yaml.field appender (ascii "type") | return none
  let type ← yaml.asString typeNode
  if type = ascii "FileLogAppender" then
    let file ← yaml.string appender (ascii "file")
    let pattern ← yaml.stringOrEmpty appender (ascii "pattern")
    return some { type := 1, pattern, file }
  else if type = ascii "StdoutLogAppender" then
    let pattern ← yaml.stringOrEmpty appender (ascii "pattern")
    return some { type := 2, pattern }
  else
    -- reported as invalid, and appended all the same
    return some {}

def castLogger (v : Bytes) : Option LoggerDefine := do
  let node ← yaml.load v
  let name ← yaml.string node (ascii "name")
  let level ← yaml.stringOrEmpty node (ascii "level")
  let list ← yaml.field node (ascii "appenders")
  let appenders ← ((list.map yaml.items).getD []).mapM (castAppender yaml)
  return { name, level := .fromString level, appenders := appenders.reduceOption }

def castSet (v : Bytes) : Option LoggerSet := do
  let node ← yaml.load v
  let defs ← (yaml.items node).mapM fun i => castLogger yaml (yaml.emit i)
  return defs.foldl LoggerSet.insert .empty

end

/-! ## Loggers -/

structure LogFormatter where
  pattern : Bytes := ascii
    "%d\x7b%Y-%m-%d %H:%M:%S\x7d%T[%rms]%T%t%T%n%T%b%T[%p]%T[%c]%T%f:%l%T%m%N"
deriving DecidableEq

inductive Output where
  /-- `FileLogAppender (filename)`. -/
  | file (filename : Bytes)
  /-- `StdoutLogAppender ()`. -/
  | stdout
deriving DecidableEq

structure LogAppender where
  output : Output
  formatter : LogFormatter := {}
deriving DecidableEq

structure Logger where
  name : Bytes
  level : LogLevel := .debug
  appenderList : List LogAppender := []
deriving DecidableEq

structure LoggerManager where
  /-- `m_loggers`. -/
  loggers : Bytes → Option Logger

/-- `getLogger (name)`: the logger it returns, which is a new one when there is none. -/
def LoggerManager.getLogger (m : LoggerManager) (name : Bytes) : Logger :=
  (m.loggers name).getD { name }

/-- The loggers with the one that `getLogger (name)` has returned changed to `logger`. -/
def LoggerManager.set (m : LoggerManager) (name : Bytes) (logger : Logger) : LoggerManager :=
  { loggers := Function.update m.loggers name (some logger) }

/-! ## The listener -/

/-- `logAppender` after the two tests of `type`; `none` is the null pointer. -/
def newAppender (a : LogAppenderDefine) : Option LogAppender :=
  if a.type = 1 then some { output := .file a.file }
  else if a.type = 2 then some { output := .stdout }
  else none

/-- The body of the loop over `val.appenders`.  It has no result when `setFormatter` is called
through the null pointer. -/
def addDefined (logger : Logger) (a : LogAppenderDefine) : Option Logger :=
  (newAppender a).map fun appender =>
    let formatter : LogFormatter := if a.pattern ≠ [] then { pattern := a.pattern } else {}
    { logger with appenderList := logger.appenderList ++ [{ appender with formatter }] }

/-- The body of the loop over `newVal`. -/
def configure (oldVal : LoggerSet) (m : LoggerManager) (val : LoggerDefine) :
    Option LoggerManager :=
  if oldVal.find val = some val then some m
  else
    let logger := { m.getLogger val.name with level := val.level, appenderList := [] }
    (runFrom addDefined logger val.appenders).map (m.set val.name)

/-- The body of the loop over `oldVal`. -/
def retire (newVal : LoggerSet) (m : LoggerManager) (val : LoggerDefine) : LoggerManager :=
  if newVal.find val = none then
    m.set val.name { m.getLogger val.name with level := .unknown, appenderList := [] }
  else m

/-- The listener. -/
def onChange (oldVal newVal : LoggerSet) (m : LoggerManager) : Option LoggerManager :=
  (runFrom (configure oldVal) m newVal.defs).map fun m => oldVal.defs.foldl (retire newVal) m

/-- An appender that can be made: one to a file or one to the console. -/
def LogAppenderDefine.Valid (a : LogAppenderDefine) : Prop := a.type = 1 ∨ a.type = 2

instance (a : LogAppenderDefine) : Decidable a.Valid := inferInstanceAs (Decidable (_ ∨ _))

/-- The appender that a valid definition asks for. -/
def LogAppenderDefine.appender (a : LogAppenderDefine) : LogAppender where
  output := if a.type = 1 then .file a.file else .stdout
  formatter := if a.pattern = [] then {} else { pattern := a.pattern }

/-- `m'` is `m` brought from the definitions `oldVal` to `newVal`. -/
structure Reconfigured (oldVal newVal : LoggerSet) (m m' : LoggerManager) : Prop where
  changed : ∀ d ∈ newVal.defs, d ∉ oldVal.defs → ∃ l, m'.loggers d.name = some l ∧
    l.level = d.level ∧
    l.appenderList = (d.appenders.filter (·.Valid)).map LogAppenderDefine.appender
  removed : ∀ d ∈ oldVal.defs, (∀ e ∈ newVal.defs, e.name ≠ d.name) → ∃ l,
    m'.loggers d.name = some l ∧ l.level = .unknown ∧ l.appenderList = []
  others : ∀ name, (∀ d ∈ newVal.defs, d.name = name → d ∈ oldVal.defs) →
    (∀ d ∈ oldVal.defs, d.name = name → ∃ e ∈ newVal.defs, e.name = name) →
    m'.loggers name = m.loggers name

/-! ### Definitions by name -/

section Names

variable {s : LoggerSet} {d e : LoggerDefine}

theorem nameKey_inj {a b : Bytes} (h : nameKey a = nameKey b) : a = b :=
  List.map_injective_iff.mpr (fun _ _ => UInt8.toNat_inj.mp) h

theorem LoggerDefine.name_eq_of_not_before (hde : d.before e = false) (hed : e.before d = false) :
    d.name = e.name := by
  apply nameKey_inj
  have hle := le_of_not_gt (of_decide_eq_false hde)
  have hge := le_of_not_gt (of_decide_eq_false hed)
  exact le_antisymm hge hle

theorem LoggerDefine.name_ne_of_before (h : d.before e = true) : d.name ≠ e.name := by
  intro hname
  have hlt := of_decide_eq_true h
  rw [hname] at hlt
  exact lt_irrefl _ hlt

theorem LoggerDefine.before_irrefl (d : LoggerDefine) : d.before d = false :=
  decide_eq_false (lt_irrefl _)

theorem LoggerSet.find_eq_some : s.find d = some e ↔ e ∈ s.defs ∧ e.name = d.name := by
  unfold find
  rw [Option.bind_eq_some_iff]
  constructor
  · intro h
    obtain ⟨i, hfind, hget⟩ := h
    obtain ⟨x, hx, hxd, hdx⟩ := OrderedSet.find_equiv hfind
    rw [hget] at hx
    cases hx
    exact ⟨List.mem_of_getElem? hget, LoggerDefine.name_eq_of_not_before hxd hdx⟩
  · intro h
    obtain ⟨hmem, hname⟩ := h
    refine OrderedSet.find_of_equiv s.sorted hmem (LoggerDefine.before_irrefl e) ?_ ?_
    · intro y
      unfold LoggerDefine.before
      rw [hname]
    · unfold LoggerDefine.before
      rw [hname]

theorem LoggerSet.find_self : s.find d = some d ↔ d ∈ s.defs := by
  rw [find_eq_some]
  exact and_iff_left rfl

theorem LoggerSet.find_eq_none : s.find d = none ↔ ∀ e ∈ s.defs, e.name ≠ d.name := by
  rw [Option.eq_none_iff_forall_ne_some]
  constructor
  · intro h e he hname
    exact h e (find_eq_some.mpr ⟨he, hname⟩)
  · intro h e hfind
    obtain ⟨he, hname⟩ := find_eq_some.mp hfind
    exact h e he hname

/-- A definition parts a set into definitions with other names. -/
theorem LoggerSet.parted (hd : d ∈ s.defs) :
    ∃ before after, s.defs = before ++ d :: after ∧ ∀ e ∈ after, e.name ≠ d.name := by
  obtain ⟨before, after, hsplit⟩ := List.append_of_mem hd
  refine ⟨before, after, hsplit, ?_⟩
  intro e he
  -- the set is sorted by name
  have hsorted := s.sorted
  rw [hsplit] at hsorted
  have htail := (List.pairwise_append.mp hsorted).2.1
  exact (LoggerDefine.name_ne_of_before (List.rel_of_pairwise_cons htail he)).symm

end Names

/-! ### The loops -/

section Loops

variable {oldVal newVal : LoggerSet} {m m' : LoggerManager} {d : LoggerDefine}

theorem LoggerManager.set_self (name : Bytes) (l : Logger) :
    (m.set name l).loggers name = some l :=
  Function.update_self _ _ _

theorem LoggerManager.set_of_ne {name name' : Bytes} (h : name' ≠ name) (l : Logger) :
    (m.set name l).loggers name' = m.loggers name' :=
  Function.update_of_ne h _ _

theorem addDefined_of_valid {l : Logger} {a : LogAppenderDefine} (h : a.Valid) :
    addDefined l a = some { l with appenderList := l.appenderList ++ [a.appender] } := by
  unfold addDefined newAppender LogAppenderDefine.appender
  rcases h with hfile | hstdout
  · rw [if_pos hfile, if_pos hfile, ite_not]
    rfl
  · have hne : a.type ≠ 1 := by omega
    rw [if_neg hne, if_pos hstdout, if_neg hne, ite_not]
    rfl

theorem addDefined_isSome (l : Logger) (a : LogAppenderDefine) :
    (addDefined l a).isSome ↔ a.Valid := by
  constructor
  · intro h
    by_contra hinvalid
    -- the pointer is null when `setFormatter` is called
    obtain ⟨hfile, hstdout⟩ := not_or.mp hinvalid
    unfold addDefined newAppender at h
    rw [if_neg hfile, if_neg hstdout] at h
    cases h
  · intro h
    rw [addDefined_of_valid h]
    rfl

theorem runFrom_addDefined_isSome {l : Logger} {as : List LogAppenderDefine} :
    (runFrom addDefined l as).isSome ↔ ∀ a ∈ as, a.Valid :=
  runFrom_isSome_iff _ addDefined_isSome

theorem runFrom_addDefined {l : Logger} {as : List LogAppenderDefine} (h : ∀ a ∈ as, a.Valid) :
    runFrom addDefined l as = some
      { l with appenderList := l.appenderList ++ as.map LogAppenderDefine.appender } := by
  induction as generalizing l with
  | nil =>
    rw [List.map_nil, List.append_nil]
    rfl
  | cons a as ih =>
    rw [List.forall_mem_cons] at h
    rw [runFrom_cons, addDefined_of_valid h.1, Option.bind_some, ih h.2, List.append_assoc]
    rfl

theorem configure_of_mem (h : d ∈ oldVal.defs) : configure oldVal m d = some m := by
  unfold configure
  rw [if_pos (LoggerSet.find_self.mpr h)]

theorem configure_of_not_mem (h : d ∉ oldVal.defs) (hvalid : ∀ a ∈ d.appenders, a.Valid) :
    configure oldVal m d = some (m.set d.name
      { m.getLogger d.name with
        level := d.level
        appenderList := d.appenders.map LogAppenderDefine.appender }) := by
  unfold configure
  rw [if_neg (fun hfind => h (LoggerSet.find_self.mp hfind))]
  dsimp only
  rw [runFrom_addDefined hvalid]
  rfl

/-- The body of the loop over `newVal` fails at a definition that is changed and has an invalid
appender. -/
theorem configure_isSome :
    (configure oldVal m d).isSome ↔ (d ∉ oldVal.defs → ∀ a ∈ d.appenders, a.Valid) := by
  by_cases h : d ∈ oldVal.defs
  · rw [configure_of_mem h]
    exact iff_of_true rfl fun hnot => absurd h hnot
  · unfold configure
    rw [if_neg (fun hfind => h (LoggerSet.find_self.mp hfind)), Option.isSome_map,
      runFrom_addDefined_isSome]
    exact ⟨fun hvalid _ => hvalid, fun hvalid => hvalid h⟩

/-- Another logger is untouched, and so is one whose definition has not changed. -/
theorem configure_keeps {name : Bytes} (h : d.name = name → d ∈ oldVal.defs)
    (hstep : configure oldVal m d = some m') : m'.loggers name = m.loggers name := by
  by_cases hd : d ∈ oldVal.defs
  · -- `continue`
    rw [configure_of_mem hd] at hstep
    cases hstep
    rfl
  · have hvalid := configure_isSome.mp (by rw [hstep]; rfl) hd
    rw [configure_of_not_mem hd hvalid] at hstep
    cases hstep
    exact LoggerManager.set_of_ne (fun hname => hd (h hname.symm)) _

theorem retire_keeps {name : Bytes} (h : d.name = name → ∃ e ∈ newVal.defs, e.name = name) :
    (retire newVal m d).loggers name = m.loggers name := by
  unfold retire
  split
  · rename_i hfind
    apply LoggerManager.set_of_ne
    intro hname
    obtain ⟨e, he, hename⟩ := h hname.symm
    exact LoggerSet.find_eq_none.mp hfind e he (hename.trans hname)
  · rfl

theorem foldl_retire_keeps {name : Bytes} {defs : List LoggerDefine}
    (h : ∀ d ∈ defs, d.name = name → ∃ e ∈ newVal.defs, e.name = name) :
    (defs.foldl (retire newVal) m).loggers name = m.loggers name := by
  induction defs generalizing m with
  | nil => rfl
  | cons d defs ih =>
    rw [List.forall_mem_cons] at h
    rw [List.foldl_cons, ih h.2, retire_keeps h.1]

/-- After the loop over `oldVal` a logger whose definition was removed logs nothing. -/
theorem foldl_retire_of_removed (hd : d ∈ oldVal.defs)
    (hremoved : ∀ e ∈ newVal.defs, e.name ≠ d.name) :
    ∃ l, (oldVal.defs.foldl (retire newVal) m).loggers d.name = some l ∧
      l.level = .unknown ∧ l.appenderList = [] := by
  obtain ⟨before, after, hsplit, hafter⟩ := LoggerSet.parted hd
  rw [hsplit, List.foldl_append, List.foldl_cons,
    foldl_retire_keeps fun e he hname => absurd hname (hafter e he)]
  unfold retire
  rw [if_pos (LoggerSet.find_eq_none.mpr hremoved), LoggerManager.set_self]
  exact ⟨_, rfl, rfl, rfl⟩

/-- After the loop over `newVal` a logger whose definition was added or changed has what the
definition says. -/
theorem runFrom_configure_of_changed (hd : d ∈ newVal.defs) (hchanged : d ∉ oldVal.defs)
    (h : runFrom (configure oldVal) m newVal.defs = some m') :
    ∃ l, m'.loggers d.name = some l ∧ l.level = d.level ∧
      l.appenderList = (d.appenders.filter (·.Valid)).map LogAppenderDefine.appender := by
  -- the definitions after this one have other names and do not touch its logger
  obtain ⟨before, after, hsplit, hafter⟩ := LoggerSet.parted hd
  rw [hsplit] at h
  obtain ⟨t, t', hstep, hview⟩ := runFrom_at (fun m => m.loggers d.name)
    (fun e he _ _ => configure_keeps fun hname => absurd hname (hafter e he)) h
  have hvalid := configure_isSome.mp (by rw [hstep]; rfl) hchanged
  rw [configure_of_not_mem hchanged hvalid] at hstep
  cases hstep
  rw [hview, LoggerManager.set_self,
    List.filter_eq_self.mpr fun a ha => decide_eq_true (hvalid a ha)]
  exact ⟨_, rfl, rfl, rfl⟩

end Loops

/-- When the listener completes, the loggers are as the new definitions say. -/
theorem reconfigured_of_onChange {oldVal newVal : LoggerSet} {m m' : LoggerManager}
    (h : onChange oldVal newVal m = some m') : Reconfigured oldVal newVal m m' := by
  obtain ⟨t, ht, rfl⟩ := Option.map_eq_some_iff.mp h
  refine ⟨?_, ?_, ?_⟩
  · intro d hd hchanged
    -- the second loop passes over it, for its name is in the new set
    rw [foldl_retire_keeps fun _ _ _ => ⟨d, hd, rfl⟩]
    exact runFrom_configure_of_changed hd hchanged ht
  · intro d hd hremoved
    exact foldl_retire_of_removed hd hremoved
  · -- neither loop comes to a definition of this name that differs
    intro name hnew hold
    rw [foldl_retire_keeps hold]
    exact runFrom_keeps (fun m => m.loggers name)
      (fun d hd _ _ => configure_keeps (hnew d hd)) ht

/-- **The listener of the log configuration.**  It completes, with the loggers as the new
definitions say, exactly when no definition that was added or changed has an appender that is
neither one to a file nor one to the console. -/
theorem reconfigures_iff (oldVal newVal : LoggerSet) (m : LoggerManager) :
    (∃ m', onChange oldVal newVal m = some m' ∧ Reconfigured oldVal newVal m m') ↔
      ∀ d ∈ newVal.defs, d ∉ oldVal.defs → ∀ a ∈ d.appenders, a.Valid := by
  have hcompletes : (onChange oldVal newVal m).isSome ↔
      ∀ d ∈ newVal.defs, d ∉ oldVal.defs → ∀ a ∈ d.appenders, a.Valid := by
    unfold onChange
    rw [Option.isSome_map]
    exact runFrom_isSome_iff (fun d => d ∉ oldVal.defs → ∀ a ∈ d.appenders, a.Valid)
      fun _ _ => configure_isSome
  rw [← hcompletes, Option.isSome_iff_exists]
  apply exists_congr
  intro m'
  exact and_iff_left_of_imp reconfigured_of_onChange

/-- As much of yaml-cpp as one document needs. -/
def oneDocument : YamlCpp where
  Node := Yaml.Node
  load text :=
    let appender := .map [(.scalar (ascii "type"), .scalar (ascii "Foo"))]
    let logger := .map [(.scalar (ascii "name"), .scalar (ascii "a")),
      (.scalar (ascii "appenders"), .sequence [appender])]
    if text = ascii "[{name: a, appenders: [{type: Foo}]}]" then some (.sequence [logger])
    else if text = ascii "{name: a, appenders: [{type: Foo}]}" then some logger
    else if text = ascii "[]" then some (.sequence [])
    else none
  emit _ := ascii "{name: a, appenders: [{type: Foo}]}"
  field
    | .map entries, key => some ((entries.find? fun e => e.1.text = key).map Prod.snd)
    | .null, _ => some none
    | .sequence _, _ => some none
    | .scalar _, _ => none
  asString
    | .scalar text => some text
    | .null => some (ascii "null")
    | _ => none
  items
    | .sequence items => items
    | _ => []

/-- A logger with an appender of the type `Foo`. -/
theorem reconfigures_not_foo :
    ¬ ∀ (yaml : YamlCpp) (v v' : Bytes) (oldVal newVal : LoggerSet) (m : LoggerManager),
      castSet yaml v = some oldVal → castSet yaml v' = some newVal →
        ∃ m', onChange oldVal newVal m = some m' ∧ Reconfigured oldVal newVal m m' := by
  intro h
  have hold : castSet oneDocument (ascii "[]") = some .empty := by decide
  let foo : LoggerDefine := { name := ascii "a", appenders := [{}] }
  have hnew : castSet oneDocument (ascii "[{name: a, appenders: [{type: Foo}]}]") =
      some (LoggerSet.empty.insert foo) := by decide
  obtain ⟨m', hm', -⟩ := h oneDocument _ _ _ _ { loggers := fun _ => none } hold hnew
  have hnull : onChange .empty (LoggerSet.empty.insert foo) { loggers := fun _ => none } = none :=
    rfl
  rw [hnull] at hm'
  cases hm'

end Luwu
