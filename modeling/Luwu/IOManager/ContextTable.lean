import Mathlib.Algebra.Group.Nat.Defs
import Mathlib.Data.List.Infix
import Mathlib.Logic.Function.Basic
import Luwu.IOManager.Events

/-!
# The context table

`addEvent` looks its descriptor up in `m_fdContexts` under the read lock, and if the table is too
short resizes it to `fd * 2` under the write lock.  Between the two critical sections the thread
holds no lock, and the resize does not look at the table again.
-/

namespace Luwu

open Lib

/-- An `FdContext` in memory, with the bits of its `event`. -/
structure FdObject where
  fd : Nat
  event : Mask := Mask.none

namespace ContextTable

/-- Where a thread is inside `addEvent`. -/
inductive Pc where
  /-- Outside. -/
  | idle
  /-- The table was too short for the descriptor. -/
  | growing (fd : Nat)
  /-- It has its `fdContext`. -/
  | holding (ptr : Nat)
deriving DecidableEq, Repr

end ContextTable

structure ContextTable where
  /-- `m_fdContexts`: pointers, `none` is `nullptr`. -/
  fdContexts : List (Option Nat)
  /-- The `FdContext` objects ever created; a pointer is an index. -/
  objects : List FdObject
  threads : Nat → ContextTable.Pc

namespace ContextTable

/-- `std::vector::resize (size)`. -/
def resize (xs : List (Option Nat)) (size : Nat) : List (Option Nat) :=
  if size ≤ xs.length then xs.take size else xs ++ List.replicate (size - xs.length) none

/-- The loop of `contextResize` from index `i` on: every null entry gets a new object. -/
def fill : Nat → List FdObject → List (Option Nat) → List (Option Nat) × List FdObject
  | _, objects, [] => ([], objects)
  | i, objects, some p :: rest =>
    let (rest, objects) := fill (i + 1) objects rest
    (some p :: rest, objects)
  | i, objects, none :: rest =>
    let (rest, objects') := fill (i + 1) (objects ++ [{ fd := i }]) rest
    (some objects.length :: rest, objects')

/-- `contextResize (size)`. -/
def contextResize (t : ContextTable) (size : Nat) : ContextTable :=
  let (fdContexts, objects) := fill 0 t.objects (resize t.fdContexts size)
  { t with fdContexts, objects }

/-- The table the constructor of `IOManager` makes. -/
def init : ContextTable :=
  contextResize { fdContexts := [], objects := [], threads := fun _ => .idle } 32

def setThread (t : ContextTable) (w : Nat) (pc : Pc) : ContextTable :=
  { t with threads := Function.update t.threads w pc }

def setEvent (t : ContextTable) (p : Nat) (e : Event) (b : Bool) : ContextTable :=
  { t with objects := t.objects.modify p fun o => { o with event := Function.update o.event e b } }

/-- `fd * 2` of a positive `int` as the `size_t` argument of `contextResize`: from `2 ^ 30` on the
product is negative and the size is more than a vector can have. -/
def fits (fd : Nat) : Bool := fd < 2 ^ 30

inductive Op where
  /-- `addEvent (fd, _)` up to the end of its read lock. -/
  | check (w fd : Nat)
  /-- The write lock; `resize` throws for a size that does not fit. -/
  | grow (w : Nat)
  /-- The rest of `addEvent`, under the mutex of the context. -/
  | register (w : Nat) (e : Event)
  /-- `delEvent`, `cancelEvent` and the like: look up the context and clear the bit. -/
  | retire (fd : Nat) (e : Event)

def step (t : ContextTable) : Op → Option ContextTable
  | .check w fd =>
    if t.threads w = .idle ∧ fd < 2 ^ 31 then
      if fd < t.fdContexts.length then
        match t.fdContexts[fd]? with
        | some (some p) => some (t.setThread w (.holding p))
        | _ => none
      else some (t.setThread w (.growing fd))
    else none
  | .grow w =>
    match t.threads w with
    | .growing fd =>
      if fits fd then
        let t := t.contextResize (fd * 2)
        match t.fdContexts[fd]? with
        | some (some p) => some (t.setThread w (.holding p))
        | _ => none
      else some (t.setThread w .idle)
    | _ => none
  | .register w e =>
    match t.threads w with
    | .holding p => some ((t.setEvent p e true).setThread w .idle)
    | _ => none
  | .retire fd e =>
    match t.fdContexts[fd]? with
    | some (some p) => some (t.setEvent p e false)
    | _ => some t

/-! ## Resizing -/

/-- The pointers and the objects that filling `k` null entries from index `i` on adds. -/
def newPtrs (next k : Nat) : List (Option Nat) := (List.range k).map fun j => some (next + j)
def newObjects (i k : Nat) : List FdObject := (List.range k).map fun j => { fd := i + j }

theorem fill_append {xs : List (Option Nat)} (hxs : none ∉ xs) (i : Nat)
    (objects : List FdObject) (ys : List (Option Nat)) :
    fill i objects (xs ++ ys) =
      (xs ++ (fill (i + xs.length) objects ys).1, (fill (i + xs.length) objects ys).2) := by
  induction xs generalizing i with
  | nil => rfl
  | cons x xs ih =>
    cases x with
    | none => exact absurd List.mem_cons_self hxs
    | some p =>
      have hrest := ih (fun hc => hxs (List.mem_cons_of_mem _ hc)) (i + 1)
      simp only [List.cons_append, fill, hrest, List.length_cons, Nat.add_assoc, Nat.add_comm 1]

theorem fill_replicate (i : Nat) (objects : List FdObject) (k : Nat) :
    fill i objects (List.replicate k none) =
      (newPtrs objects.length k, objects ++ newObjects i k) := by
  induction k generalizing i objects with
  | zero => simp [fill, newPtrs, newObjects]
  | succ k ih =>
    have hshift : ∀ x : Nat, (fun j => x + (j + 1)) = fun j => x + 1 + j := by
      intro x
      funext j
      omega
    simp only [List.replicate_succ, fill, ih, List.length_append, List.length_singleton, newPtrs,
      newObjects, List.range_succ_eq_map, List.map_cons, List.map_map, Nat.add_zero,
      List.append_assoc, List.singleton_append, Function.comp_def, Nat.succ_eq_add_one]
    simp only [Nat.add_assoc, Nat.add_comm 1]

theorem contextResize_shrink {t : ContextTable} (h : none ∉ t.fdContexts) {size : Nat}
    (hs : size ≤ t.fdContexts.length) :
    t.contextResize size = { t with fdContexts := t.fdContexts.take size } := by
  have hfill := fill_append (fun hc => h (List.mem_of_mem_take hc) : none ∉ t.fdContexts.take size)
    0 t.objects []
  simp only [List.append_nil, fill] at hfill
  rw [contextResize, resize, if_pos hs, hfill]

theorem contextResize_grow {t : ContextTable} (h : none ∉ t.fdContexts) {size : Nat}
    (hs : t.fdContexts.length ≤ size) :
    t.contextResize size =
      { t with
        fdContexts := t.fdContexts ++ newPtrs t.objects.length (size - t.fdContexts.length)
        objects := t.objects ++ newObjects t.fdContexts.length (size - t.fdContexts.length) } := by
  rcases Nat.lt_or_eq_of_le hs with hlt | heq
  · rw [contextResize, resize, if_neg (by omega), fill_append h, fill_replicate, Nat.zero_add]
  · rw [contextResize_shrink h (by omega), ← heq]
    simp [newPtrs, newObjects]

theorem getElem?_newPtrs {next k j : Nat} (h : j < k) :
    (newPtrs next k)[j]? = some (some (next + j)) := by
  simp [newPtrs, h]

theorem getElem?_newObjects {i k j : Nat} (h : j < k) :
    (newObjects i k)[j]? = some { fd := i + j } := by
  simp [newObjects, h]

@[simp] theorem length_newPtrs (next k : Nat) : (newPtrs next k).length = k := by simp [newPtrs]
@[simp] theorem length_newObjects (i k : Nat) : (newObjects i k).length = k := by simp [newObjects]

/-! ## The invariant -/

/-- Every entry points to the object of its descriptor. -/
def Filled (xs : List (Option Nat)) (objects : List FdObject) : Prop :=
  ∀ (fd : Nat) (x : Option Nat), xs[fd]? = some x →
    ∃ (p : Nat) (o : FdObject), x = some p ∧ objects[p]? = some o ∧ o.fd = fd

/-- All objects are in the table. -/
def Complete (xs : List (Option Nat)) (objects : List FdObject) : Prop :=
  ∀ (p : Nat) (o : FdObject), objects[p]? = some o → xs[o.fd]? = some (some p)

theorem Filled.none_notMem {xs : List (Option Nat)} {objects : List FdObject}
    (h : Filled xs objects) : none ∉ xs := by
  intro hc
  obtain ⟨fd, hfd⟩ := List.mem_iff_getElem?.mp hc
  obtain ⟨p, o, hp, -⟩ := h fd none hfd
  cases hp

theorem Filled.take {xs : List (Option Nat)} {objects : List FdObject} (h : Filled xs objects)
    (k : Nat) : Filled (xs.take k) objects := by
  intro fd x hx
  rw [List.getElem?_take] at hx
  split at hx
  · exact h fd x hx
  · cases hx

/-- The new part of a grown table. -/
theorem Filled.grow {xs : List (Option Nat)} {objects : List FdObject} (h : Filled xs objects)
    (k : Nat) :
    Filled (xs ++ newPtrs objects.length k) (objects ++ newObjects xs.length k) := by
  intro fd x hx
  by_cases hfd : fd < xs.length
  · rw [List.getElem?_append_left hfd] at hx
    obtain ⟨p, o, hp, ho, hofd⟩ := h fd x hx
    obtain ⟨hlt, -⟩ := List.getElem?_eq_some_iff.mp ho
    exact ⟨p, o, hp, by rw [List.getElem?_append_left hlt]; exact ho, hofd⟩
  · rw [List.getElem?_append_right (by omega)] at hx
    have hj : fd - xs.length < k := by
      obtain ⟨hlt, -⟩ := List.getElem?_eq_some_iff.mp hx
      simpa using hlt
    rw [getElem?_newPtrs hj] at hx
    cases hx
    refine ⟨_, { fd := xs.length + (fd - xs.length) }, rfl, ?_, ?_⟩
    · rw [List.getElem?_append_right (by omega), Nat.add_sub_cancel_left, getElem?_newObjects hj]
    · change xs.length + (fd - xs.length) = fd
      omega

theorem Complete.grow {xs : List (Option Nat)} {objects : List FdObject} (h : Complete xs objects)
    (k : Nat) :
    Complete (xs ++ newPtrs objects.length k) (objects ++ newObjects xs.length k) := by
  intro p o ho
  by_cases hp : p < objects.length
  · rw [List.getElem?_append_left hp] at ho
    have hx := h p o ho
    obtain ⟨hlt, -⟩ := List.getElem?_eq_some_iff.mp hx
    rw [List.getElem?_append_left hlt]
    exact hx
  · rw [List.getElem?_append_right (by omega)] at ho
    have hj : p - objects.length < k := by
      obtain ⟨hlt, -⟩ := List.getElem?_eq_some_iff.mp ho
      simpa using hlt
    rw [getElem?_newObjects hj] at ho
    cases ho
    rw [List.getElem?_append_right (by simp), Nat.add_sub_cancel_left, getElem?_newPtrs hj,
      Nat.add_sub_cancel' (by omega)]

/-- Writing the bits of a context changes neither its descriptor nor its place. -/
theorem getElem?_setEvent {t : ContextTable} {p q : Nat} {e : Event} {b : Bool} {o : FdObject}
    (h : (t.setEvent p e b).objects[q]? = some o) :
    ∃ o', t.objects[q]? = some o' ∧ o.fd = o'.fd := by
  simp only [setEvent, List.getElem?_modify, Option.map_eq_map, Option.map_eq_some_iff] at h
  obtain ⟨o', ho', rfl⟩ := h
  refine ⟨o', ho', ?_⟩
  split <;> rfl

theorem setEvent_filled {t : ContextTable} (h : Filled t.fdContexts t.objects) (p : Nat)
    (e : Event) (b : Bool) : Filled t.fdContexts (t.setEvent p e b).objects := by
  intro fd x hx
  obtain ⟨q, o, hq, ho, hfd⟩ := h fd x hx
  refine ⟨q, if p = q then { o with event := Function.update o.event e b } else o, hq, ?_, ?_⟩
  · simp only [setEvent, List.getElem?_modify, ho, Option.map_eq_map, Option.map_some]
  · split
    · exact hfd
    · exact hfd

theorem setEvent_complete {t : ContextTable} (h : Complete t.fdContexts t.objects) (p : Nat)
    (e : Event) (b : Bool) : Complete t.fdContexts (t.setEvent p e b).objects := by
  intro q o ho
  obtain ⟨o', ho', hfd⟩ := getElem?_setEvent ho
  rw [hfd]
  exact h q o' ho'

/-- The table is filled and has room for the descriptors of the first table; only descriptors
beyond those wait for the write lock. -/
structure Inv (t : ContextTable) : Prop where
  filled : Filled t.fdContexts t.objects
  length_ge : 32 ≤ t.fdContexts.length
  growing_ge : ∀ w fd, t.threads w = .growing fd → 32 ≤ fd

theorem Inv.setThread {t : ContextTable} (h : Inv t) (w : Nat) {pc : Pc}
    (hpc : ∀ fd, pc = .growing fd → 32 ≤ fd) : Inv (t.setThread w pc) where
  filled := h.filled
  length_ge := h.length_ge
  growing_ge w' fd hw := by
    by_cases hww : w' = w
    · subst hww
      simp only [ContextTable.setThread, Function.update_self] at hw
      exact hpc fd hw
    · simp only [ContextTable.setThread, Function.update_of_ne hww] at hw
      exact h.growing_ge w' fd hw

theorem Inv.setEvent {t : ContextTable} (h : Inv t) (p : Nat) (e : Event) (b : Bool) :
    Inv (t.setEvent p e b) :=
  ⟨setEvent_filled h.filled p e b, h.length_ge, h.growing_ge⟩

/-- A resize leaves a filled table of the size asked for. -/
theorem Inv.contextResize {t : ContextTable} (h : Inv t) {size : Nat} (hs : 32 ≤ size) :
    Inv (t.contextResize size) ∧ (t.contextResize size).fdContexts.length = size ∧
      (t.contextResize size).threads = t.threads := by
  rcases Nat.le_total size t.fdContexts.length with hle | hle
  · rw [contextResize_shrink h.filled.none_notMem hle]
    have hlen : (t.fdContexts.take size).length = size := by
      rw [List.length_take]
      omega
    exact ⟨⟨h.filled.take size, by rw [hlen]; exact hs, h.growing_ge⟩, hlen, rfl⟩
  · rw [contextResize_grow h.filled.none_notMem hle]
    have hlen : (t.fdContexts ++ newPtrs t.objects.length (size - t.fdContexts.length)).length =
        size := by
      rw [List.length_append, length_newPtrs]
      omega
    exact ⟨⟨h.filled.grow _, by rw [hlen]; exact hs, h.growing_ge⟩, hlen, rfl⟩

theorem init_eq : init =
    { fdContexts := newPtrs 0 32, objects := newObjects 0 32, threads := fun _ => .idle } := rfl

theorem init_inv : Inv init := by
  have hfilled : Filled [] [] := by
    intro fd x hx
    cases hx
  refine ⟨hfilled.grow 32, by rw [init_eq, length_newPtrs], ?_⟩
  intro w fd hw
  cases hw

theorem init_complete : Complete init.fdContexts init.objects := by
  have hcomplete : Complete [] [] := by
    intro p o ho
    cases ho
  exact hcomplete.grow 32

/-! ## Steps -/

/-- What a step does to the table: nothing, or it resizes it for a descriptor that was waiting. -/
theorem step_cases {t t' : ContextTable} {op : Op} (h : Inv t) (hs : step t op = some t') :
    Inv t' ∧
      ((t'.fdContexts = t.fdContexts ∧ (Complete t.fdContexts t.objects →
          Complete t'.fdContexts t'.objects)) ∨
        ∃ w fd, op = .grow w ∧ t.threads w = .growing fd ∧ fits fd = true ∧
          t'.fdContexts = (t.contextResize (fd * 2)).fdContexts ∧
          t'.objects = (t.contextResize (fd * 2)).objects) := by
  cases op with
  | check w fd =>
    simp only [step] at hs
    split at hs
    · split at hs
      · split at hs
        · cases hs
          -- the read lock: the slot is there, and the thread has its context
          exact ⟨h.setThread w (by simp), .inl ⟨rfl, id⟩⟩
        · cases hs
      · rename_i hlt
        cases hs
        -- the slot is missing, and the thread goes for the write lock
        refine ⟨h.setThread w ?_, .inl ⟨rfl, id⟩⟩
        intro fd' hfd
        cases hfd
        have := h.length_ge
        omega
    · cases hs
  | grow w =>
    simp only [step] at hs
    split at hs
    · rename_i fd hw
      -- the write lock: the table is resized for the descriptor, whatever was done meanwhile
      have hge := h.growing_ge w fd hw
      obtain ⟨hinv, -, -⟩ := h.contextResize (by omega : 32 ≤ fd * 2)
      split at hs
      · rename_i hfits
        split at hs
        · cases hs
          exact ⟨hinv.setThread w (by simp), .inr ⟨w, fd, rfl, hw, hfits, rfl, rfl⟩⟩
        · cases hs
      · cases hs
        exact ⟨h.setThread w (by simp), .inl ⟨rfl, id⟩⟩
    · cases hs
  | register w e =>
    simp only [step] at hs
    split at hs
    · rename_i p hw
      cases hs
      exact ⟨(h.setEvent p e true).setThread w (by simp),
        .inl ⟨rfl, fun hc => setEvent_complete hc p e true⟩⟩
    · cases hs
  | retire fd e =>
    simp only [step] at hs
    split at hs
    · rename_i p hp
      cases hs
      exact ⟨h.setEvent p e false, .inl ⟨rfl, fun hc => setEvent_complete hc p e false⟩⟩
    · cases hs
      exact ⟨h, .inl ⟨rfl, id⟩⟩

/-- A thread that waits for the write lock gets its context. -/
theorem grow_step {t : ContextTable} (h : Inv t) {w fd : Nat} (hw : t.threads w = .growing fd)
    (hfits : fits fd = true) :
    ∃ t', step t (.grow w) = some t' ∧ t'.fdContexts = (t.contextResize (fd * 2)).fdContexts := by
  have hge := h.growing_ge w fd hw
  obtain ⟨hinv, hlen, -⟩ := h.contextResize (by omega : 32 ≤ fd * 2)
  have hlt : fd < (t.contextResize (fd * 2)).fdContexts.length := by omega
  obtain ⟨p, o, hp, -⟩ := hinv.filled fd _ (List.getElem?_eq_getElem hlt)
  refine ⟨(t.contextResize (fd * 2)).setThread w (.holding p), ?_, rfl⟩
  simp only [step, hw, hfits, if_true, List.getElem?_eq_getElem hlt, hp]

/-! ## Runs -/

/-- The resize of a step makes the table no shorter than it is by then. -/
def Covers (t : ContextTable) (op : Op) : Prop :=
  ∀ w fd, op = .grow w → t.threads w = .growing fd → fits fd = true →
    t.fdContexts.length ≤ fd * 2

/-- Every registered event can be found through the table. -/
def Remembered (t : ContextTable) : Prop :=
  ∀ (p : Nat) (o : FdObject) (e : Event), t.objects[p]? = some o → o.event e = true →
    t.fdContexts[o.fd]? = some (some p)

/-- No entry of the table goes or changes in the step, and no registration is lost. -/
def KeepsEntries (t : ContextTable) (op : Op) : Prop :=
  ∀ t', step t op = some t' → t.fdContexts <+: t'.fdContexts ∧ Remembered t'

theorem covers_of_keepsEntries {t : ContextTable} {op : Op} (h : Inv t)
    (hk : KeepsEntries t op) : Covers t op := by
  rintro w fd rfl hw hfits
  obtain ⟨t', hs, htable⟩ := grow_step h hw hfits
  have hge := h.growing_ge w fd hw
  obtain ⟨-, hlen, -⟩ := h.contextResize (by omega : 32 ≤ fd * 2)
  have hle := (hk t' hs).1.length_le
  rw [htable, hlen] at hle
  exact hle

/-- A step that covers the table keeps its entries and all objects in it. -/
theorem step_of_covers {t t' : ContextTable} {op : Op} (h : Inv t)
    (hc : Complete t.fdContexts t.objects) (hcov : Covers t op) (hs : step t op = some t') :
    t.fdContexts <+: t'.fdContexts ∧ Complete t'.fdContexts t'.objects := by
  obtain ⟨-, ⟨htable, hcomplete⟩ | ⟨w, fd, hop, hw, hfits, htable, hobjects⟩⟩ := step_cases h hs
  · rw [htable] at hcomplete ⊢
    exact ⟨List.prefix_refl _, hcomplete hc⟩
  · have hgrow := contextResize_grow h.filled.none_notMem (hcov w fd hop hw hfits)
    rw [htable, hobjects, hgrow]
    exact ⟨List.prefix_append _ _, hc.grow _⟩

/-- **When the table only grows.**  In a run of `addEvent` calls and removals by any threads, every
step leaves the table an extension of what it was, with every registered event still reachable
through it, exactly when every `contextResize` of the run asks for at least the size that the table
has by then. -/
theorem table_grows_iff (ops : List Op) :
    AllSteps step KeepsEntries init ops ↔ AllSteps step Covers init ops := by
  constructor
  · exact AllSteps.imp (fun s a s' hs _ hstep => (step_cases hs hstep).1)
      (fun s a hs hk => covers_of_keepsEntries hs hk) ops init init_inv
  · refine AllSteps.imp (P := fun t => Inv t ∧ Complete t.fdContexts t.objects) ?_ ?_ ops init
      ⟨init_inv, init_complete⟩
    · intro s a s' hs hcov hstep
      exact ⟨(step_cases hs.1 hstep).1, (step_of_covers hs.1 hs.2 hcov hstep).2⟩
    · intro s a hs hcov s' hstep
      obtain ⟨hpre, hcomplete⟩ := step_of_covers hs.1 hs.2 hcov hstep
      exact ⟨hpre, fun p o e ho _ => hcomplete p o ho⟩

set_option maxRecDepth 4000 in
/-- Two threads find the table of 32 entries too short for descriptors 64 and 32.  The first one
grows it to 128 and registers its event; the second one then cuts it down to 64. -/
theorem table_shrinks :
    ∃ t t', runFrom step init [.check 0 64, .check 1 32, .grow 0, .register 0 .read] = some t ∧
      step t (.grow 1) = some t' ∧ t.fdContexts.length = 128 ∧ t'.fdContexts.length = 64 ∧
      ¬ KeepsEntries t (.grow 1) := by
  refine ⟨_, _, rfl, rfl, rfl, rfl, ?_⟩
  intro hk
  have hle := (hk _ rfl).1.length_le
  revert hle
  decide

end ContextTable

end Luwu
