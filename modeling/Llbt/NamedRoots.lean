import Mathlib

/-!
# The registry of named roots (`core/store.cpp`, `core.hpp`)

A store keeps its structures under names.  The registry has the names in a list, and the refs of the roots and the tags
of their types in two parallel arrays.  A tree that is open for writing puts a moved root at the index that its name had
when it was opened.

* `tx_run_eq` — every sequence of calls returns what it returns on a finite map from names to types and roots, with the
  same structures freed; the names stay distinct, the arrays parallel, and a call that throws changes nothing.
-/

set_option autoImplicit false

namespace Llbt.NamedRoots

abbrev NodeRef := Nat

inductive ErrorCode where
  | wrongTransactionState
  | illegalOperation
  deriving DecidableEq

structure LogicError where
  code : ErrorCode
  message : String
  deriving DecidableEq

def readOnly : LogicError := ⟨.wrongTransactionState, "read-only transaction"⟩

def holdsTree : LogicError := ⟨.illegalOperation, "root holds a typed Tree; erase it first"⟩

def differentType : LogicError := ⟨.illegalOperation, "root exists with a different type"⟩

inductive ElementType where
  | int64
  | float
  | double
  | string
  | binary
  | timestamp
  deriving DecidableEq

def ElementType.tag : ElementType → Nat
  | int64 => 1
  | float => 2
  | double => 3
  | string => 4
  | binary => 5
  | timestamp => 6

def rawTypeTag : Nat := 0

/-! ## Transactions -/

section Shell

/-- The calls of `Tx`, and a change through a tree that is open. -/
inductive Call (N : Type) where
  | rootCount
  | rootName (i : Nat)
  | getRoot (name : N)
  | setRoot (name : N) (ref : NodeRef)
  | eraseRoot (name : N)
  /-- `tree<T>`; `fresh` is the leaf that `create` allocates if it has to. -/
  | tree (T : ElementType) (name : N) (fresh : NodeRef)
  /-- A change through the tree that was opened as number `handle`, after which its root is at `ref`. -/
  | change (handle : Nat) (ref : NodeRef)

inductive Result (N : Type) where
  | error (e : LogicError)
  | count (n : Nat)
  | name (name : Option N)
  | root (ref : Option NodeRef)
  /-- `destroy_deep` was called for these refs. -/
  | done (destroyed : List NodeRef)
  | erased (found : Bool) (destroyed : List NodeRef)
  | opened (ref : NodeRef)
  /-- There is no such tree. -/
  | absent
  deriving DecidableEq

/-- A transaction over a directory `D` of roots, with the trees that are open. -/
structure Tx (D H : Type) where
  writable : Bool
  roots : D
  handles : List H

variable {D H N : Type}

/-- A call with `require_write`. -/
def Tx.write (t : Tx D H) (f : Tx D H × Result N) : Tx D H × Result N :=
  if t.writable then f else (t, .error readOnly)

/-- A sequence of calls, and what they return. -/
def Tx.run (call : Tx D H → Call N → Tx D H × Result N) : Tx D H → List (Call N) → Tx D H × List (Result N)
  | t, [] => (t, [])
  | t, c :: calls =>
    let rest := (call t c).1.run call calls
    (rest.1, (call t c).2 :: rest.2)

end Shell

/-! ## The registry -/

section Model

variable {N : Type} [DecidableEq N]

/-- The tree of the names is taken as the list of its elements: the names are short enough to be kept whole. -/
structure Registry (N : Type) where
  names : List N
  roots : List NodeRef
  types : List Nat

namespace Registry

def find (r : Registry N) (name : N) : Option Nat := r.names.findIdx? (· = name)

def root (r : Registry N) (i : Nat) : NodeRef := r.roots.getD i 0

def type (r : Registry N) (i : Nat) : Nat := r.types.getD i 0

/-- `add`; the new slot is the last one. -/
def add (r : Registry N) (name : N) (tag : Nat) : Registry N := ⟨r.names ++ [name], r.roots ++ [0], r.types ++ [tag]⟩

/-- `set_root_ref`, and what it frees. -/
def setRootRef (r : Registry N) (i : Nat) (ref : NodeRef) : Registry N × List NodeRef :=
  (⟨r.names, r.roots.set i ref, r.types⟩, if r.root i ≠ 0 ∧ r.root i ≠ ref then [r.root i] else [])

/-- `erase`, and what it frees. -/
def erase (r : Registry N) (i : Nat) : Registry N × List NodeRef :=
  (⟨r.names.eraseIdx i, r.roots.eraseIdx i, r.types.eraseIdx i⟩, if r.root i ≠ 0 then [r.root i] else [])

end Registry

/-- The end of `Tx::tree`: the tree of slot `i` is attached, or is created. -/
def openTree (t : Tx (Registry N) Nat) (i : Nat) (fresh : NodeRef) : Tx (Registry N) Nat × Result N :=
  if t.roots.root i ≠ 0 then (⟨t.writable, t.roots, t.handles ++ [i]⟩, .opened (t.roots.root i))
  else t.write (⟨t.writable, ⟨t.roots.names, t.roots.roots.set i fresh, t.roots.types⟩, t.handles ++ [i]⟩,
    .opened fresh)

/-- The calls on the registry.  A tree is known by its index; after `erase_root` the open ones are invalid. -/
def txCall (t : Tx (Registry N) Nat) : Call N → Tx (Registry N) Nat × Result N
  | .rootCount => (t, .count t.roots.names.length)
  | .rootName i => (t, .name t.roots.names[i]?)
  | .getRoot name => (t, .root ((t.roots.find name).map t.roots.root))
  | .setRoot name ref => t.write <|
    match t.roots.find name with
    | none =>
      let r := (t.roots.add name rawTypeTag).setRootRef t.roots.names.length ref
      (⟨t.writable, r.1, t.handles⟩, .done r.2)
    | some i =>
      if t.roots.type i ≠ rawTypeTag then (t, .error holdsTree)
      else (⟨t.writable, (t.roots.setRootRef i ref).1, t.handles⟩, .done (t.roots.setRootRef i ref).2)
  | .eraseRoot name => t.write <|
    match t.roots.find name with
    | none => (t, .erased false [])
    | some i => (⟨t.writable, (t.roots.erase i).1, []⟩, .erased true (t.roots.erase i).2)
  | .tree T name fresh =>
    match t.roots.find name with
    | none => t.write (openTree ⟨t.writable, t.roots.add name T.tag, t.handles⟩ t.roots.names.length fresh)
    | some i =>
      if t.roots.type i ≠ T.tag then (t, .error differentType)
      else openTree t i fresh
  | .change handle ref =>
    match t.handles[handle]? with
    | none => (t, .absent)
    | some i => t.write (⟨t.writable, ⟨t.roots.names, t.roots.roots.set i ref, t.roots.types⟩, t.handles⟩, .done [])

/-! ## The finite map -/

structure Entry (N : Type) where
  name : N
  type : Nat
  root : NodeRef

/-- A finite map from names to types and roots, in the order in which the names were added. -/
structure Roots (N : Type) where
  entries : List (Entry N)
  nodup : (entries.map Entry.name).Nodup

namespace Roots

def lookup (m : Roots N) (name : N) : Option (Entry N) := m.entries.find? (·.name = name)

/-- The entry replaces the one of its name, or is new. -/
def put (m : Roots N) (e : Entry N) : Roots N :=
  if h : e.name ∈ m.entries.map Entry.name then
    ⟨m.entries.map fun x => if x.name = e.name then e else x, by
      rw [List.map_map, show Entry.name ∘ (fun x => if x.name = e.name then e else x) = Entry.name from
        funext fun x => by dsimp only [Function.comp]; split <;> simp_all]
      exact m.nodup⟩
  else ⟨m.entries ++ [e], by
    rw [List.map_append, List.nodup_append_comm]
    exact List.nodup_cons.mpr ⟨h, m.nodup⟩⟩

def remove (m : Roots N) (name : N) : Roots N :=
  ⟨m.entries.filter (·.name ≠ name), m.nodup.sublist (List.filter_sublist.map _)⟩

end Roots

/-- The calls on the finite map.  A tree is known by its name. -/
def mapCall (t : Tx (Roots N) N) : Call N → Tx (Roots N) N × Result N
  | .rootCount => (t, .count t.roots.entries.length)
  | .rootName i => (t, .name (t.roots.entries[i]?.map Entry.name))
  | .getRoot name => (t, .root ((t.roots.lookup name).map Entry.root))
  | .setRoot name ref => t.write <|
    match t.roots.lookup name with
    | none => (⟨t.writable, t.roots.put ⟨name, rawTypeTag, ref⟩, t.handles⟩, .done [])
    | some e =>
      if e.type ≠ rawTypeTag then (t, .error holdsTree)
      else (⟨t.writable, t.roots.put ⟨name, rawTypeTag, ref⟩, t.handles⟩,
        .done (if e.root ≠ 0 ∧ e.root ≠ ref then [e.root] else []))
  | .eraseRoot name => t.write <|
    match t.roots.lookup name with
    | none => (t, .erased false [])
    | some e => (⟨t.writable, t.roots.remove name, []⟩, .erased true (if e.root ≠ 0 then [e.root] else []))
  | .tree T name fresh =>
    match t.roots.lookup name with
    | none => t.write (⟨t.writable, t.roots.put ⟨name, T.tag, fresh⟩, t.handles ++ [name]⟩, .opened fresh)
    | some e =>
      if e.type ≠ T.tag then (t, .error differentType)
      else if e.root ≠ 0 then (⟨t.writable, t.roots, t.handles ++ [name]⟩, .opened e.root)
      else t.write (⟨t.writable, t.roots.put ⟨name, T.tag, fresh⟩, t.handles ++ [name]⟩, .opened fresh)
  | .change handle ref =>
    match t.handles[handle]?.bind t.roots.lookup with
    | none => (t, .absent)
    | some e => t.write (⟨t.writable, t.roots.put ⟨e.name, e.type, ref⟩, t.handles⟩, .done [])

end Model

/-! ## The registry represents the map -/

section Refinement

variable {N : Type} {m : Roots N} {name : N} {e x : Entry N} {i : Nat}

def Roots.registry (m : Roots N) : Registry N :=
  ⟨m.entries.map Entry.name, m.entries.map Entry.root, m.entries.map Entry.type⟩

/-- The names of the map tell the slots apart. -/
theorem index_unique {j : Nat} {y : Entry N} (hi : m.entries[i]? = some x) (hj : m.entries[j]? = some y)
    (hname : x.name = y.name) : i = j := by
  have hlt : i < (m.entries.map Entry.name).length := by
    rw [List.length_map]
    exact (List.getElem?_eq_some_iff.mp hi).1
  refine (List.getElem?_inj hlt m.nodup).mp ?_
  rw [List.getElem?_map, List.getElem?_map, hi, hj, Option.map_some, Option.map_some, hname]

theorem slot_name (hi : m.entries[i]? = some e) : m.registry.names[i]? = some e.name := by
  rw [Roots.registry, List.getElem?_map, hi, Option.map_some]

theorem getD_slot {f : Entry N → Nat} (hi : m.entries[i]? = some e) : (m.entries.map f).getD i 0 = f e := by
  rw [List.getD_eq_getElem?_getD, List.getElem?_map, hi]
  rfl

theorem slot_root (hi : m.entries[i]? = some e) : m.registry.root i = e.root := getD_slot hi

theorem slot_type (hi : m.entries[i]? = some e) : m.registry.type i = e.type := getD_slot hi

/-- A transaction on the registry and one on the map: the open trees have the indices of their names. -/
structure Represents (c : Tx (Registry N) Nat) (t : Tx (Roots N) N) : Prop where
  writable : c.writable = t.writable
  roots : c.roots = t.roots.registry
  handles : List.Forall₂ (fun i name => t.roots.registry.names[i]? = some name) c.handles t.handles

variable {c : Tx (Registry N) Nat} {t : Tx (Roots N) N}

/-- The calls return the same, and leave transactions of which one represents the other. -/
abbrev Agree (f : Tx (Registry N) Nat × Result N) (g : Tx (Roots N) N × Result N) :
    Prop := Represents f.1 g.1 ∧ f.2 = g.2

/-- Both refuse the call, or both make it. -/
theorem Represents.write (h : Represents c t) {f : Tx (Registry N) Nat × Result N} {g : Tx (Roots N) N × Result N}
    (hfg : c.writable = true → Agree f g) : Agree (c.write f) (t.write g) := by
  unfold Tx.write
  rw [← h.writable]
  split
  · rename_i hwritable
    exact hfg hwritable
  · exact ⟨h, rfl⟩

theorem Represents.opened (h : Represents c t) (hi : t.roots.registry.names[i]? = some name) :
    Represents ⟨c.writable, c.roots, c.handles ++ [i]⟩ ⟨t.writable, t.roots, t.handles ++ [name]⟩ :=
  ⟨h.writable, h.roots, List.rel_append h.handles (.cons hi .nil)⟩

/-- If the call throws, the transaction is as before. -/
def Atomic (c : Tx (Registry N) Nat) (f : Tx (Registry N) Nat × Result N) : Prop := ∀ e, f.2 = .error e → f.1 = c

theorem Atomic.write {f : Tx (Registry N) Nat × Result N} (h : c.writable = true → Atomic c f) :
    Atomic c (c.write f) := by
  unfold Tx.write
  split
  · rename_i hwritable
    exact h hwritable
  · exact fun _ _ => rfl

theorem atomic_openTree {c' : Tx (Registry N) Nat} {fresh : NodeRef} (h : c'.writable = true ∨ c' = c) :
    Atomic c (openTree c' i fresh) := by
  unfold openTree Tx.write
  split_ifs with hroot hwritable
  · exact fun _ => nofun
  · exact fun _ => nofun
  · exact fun _ _ => h.resolve_left hwritable

variable [DecidableEq N]

theorem find_none (h : m.lookup name = none) : m.registry.find name = none ∧ name ∉ m.entries.map Entry.name := by
  have hnot : ∀ x ∈ m.entries, ¬ x.name = name := by simpa [Roots.lookup] using h
  refine ⟨?_, fun hmem => ?_⟩
  · simpa [Registry.find, Roots.registry] using hnot
  · obtain ⟨x, hx, hname⟩ := List.mem_map.mp hmem
    exact hnot x hx hname

theorem find_some (h : m.lookup name = some e) :
    ∃ i, m.registry.find name = some i ∧ m.entries[i]? = some e ∧ e.name = name := by
  obtain ⟨hname, i, hi, he, hfirst⟩ := List.find?_eq_some_iff_getElem.mp h
  refine ⟨i, ?_, List.getElem?_eq_some_iff.mpr ⟨hi, he⟩, of_decide_eq_true hname⟩
  rw [Registry.find, List.findIdx?_eq_some_iff_getElem]
  refine ⟨by simpa [Roots.registry] using hi, by simpa [Roots.registry, he] using hname, fun j hj => ?_⟩
  simpa [Roots.registry] using hfirst j hj

theorem lookup_at (hi : m.entries[i]? = some e) : m.lookup e.name = some e := by
  cases hl : m.lookup e.name with
  | none => exact absurd (List.mem_map_of_mem (List.mem_of_getElem? hi)) (find_none hl).2
  | some x =>
    obtain ⟨j, -, hj, hname⟩ := find_some hl
    obtain rfl := index_unique hi hj hname.symm
    exact hi ▸ hj ▸ rfl

/-- To put an entry for a name is to change its slot. -/
theorem entries_put (hi : m.entries[i]? = some x) (hname : x.name = e.name) :
    (m.put e).entries = m.entries.set i e := by
  have hmem : e.name ∈ m.entries.map Entry.name := hname ▸ List.mem_map_of_mem (List.mem_of_getElem? hi)
  rw [Roots.put, dif_pos hmem]
  refine List.ext_getElem? fun j => ?_
  rw [List.getElem?_map, List.getElem?_set]
  split
  · rename_i hij
    subst hij
    rw [hi, Option.map_some, if_pos hname, if_pos (List.getElem?_eq_some_iff.mp hi).1]
  · rename_i hij
    cases hj : m.entries[j]? with
    | none => rfl
    | some y => rw [Option.map_some, if_neg fun hy => hij (index_unique hi hj (hname.trans hy.symm))]

theorem entries_put_new (h : e.name ∉ m.entries.map Entry.name) : (m.put e).entries = m.entries ++ [e] := by
  rw [Roots.put, dif_neg h]

/-- To remove a name is to remove its slot. -/
theorem filter_eq_eraseIdx : ∀ {l : List (Entry N)} {i : Nat}, (l.map Entry.name).Nodup → l[i]? = some e →
    l.filter (·.name ≠ e.name) = l.eraseIdx i
  | x :: l, 0, hnodup, hi => by
    obtain rfl : x = e := Option.some.inj hi
    have hkeep : ∀ y ∈ l, decide (y.name ≠ x.name) = true := fun y hy => decide_eq_true fun (hname : y.name = x.name) =>
      (List.nodup_cons.mp hnodup).1 (hname ▸ List.mem_map_of_mem hy)
    rw [List.filter_cons_of_neg (by simp), List.filter_eq_self.mpr hkeep]
    rfl
  | x :: l, i + 1, hnodup, hi => by
    obtain ⟨hx, hnodup⟩ := List.nodup_cons.mp hnodup
    have hi : l[i]? = some e := hi
    have hne : x.name ≠ e.name := fun hname => hx (hname ▸ List.mem_map_of_mem (List.mem_of_getElem? hi))
    rw [List.filter_cons_of_pos (by simpa using hne), filter_eq_eraseIdx hnodup hi]
    rfl

theorem registry_put (hi : m.entries[i]? = some e) (ref : NodeRef) :
    (m.put ⟨e.name, e.type, ref⟩).registry = ⟨m.registry.names, m.registry.roots.set i ref, m.registry.types⟩ := by
  obtain ⟨hlt, he⟩ := List.getElem?_eq_some_iff.mp hi
  have hset : ∀ {α : Type} (f : Entry N → α), (m.entries.map f).set i (f e) = m.entries.map f := by
    intro α f
    rw [← List.map_set, ← he, List.set_getElem_self]
  rw [Roots.registry, entries_put (e := ⟨e.name, e.type, ref⟩) hi rfl, List.map_set, List.map_set,
    List.map_set, hset, hset]
  rfl

theorem registry_remove (hi : m.entries[i]? = some e) : (m.remove e.name).registry = (m.registry.erase i).1 := by
  have hentries : (m.remove e.name).entries = m.entries.eraseIdx i := filter_eq_eraseIdx m.nodup hi
  rw [Roots.registry, hentries, ← List.eraseIdx_map, ← List.eraseIdx_map, ← List.eraseIdx_map]
  rfl

theorem registry_put_new (hname : name ∉ m.entries.map Entry.name) (tag : Nat) (ref : NodeRef) :
    (m.put ⟨name, tag, ref⟩).registry =
      ((m.registry.add name tag).setRootRef m.registry.names.length ref).1 := by
  rw [Roots.registry, entries_put_new hname]
  simp [Registry.setRootRef, Registry.add, Roots.registry]

theorem Represents.put (h : Represents c t) (hi : t.roots.entries[i]? = some e) (ref : NodeRef) :
    Represents ⟨c.writable, ⟨c.roots.names, c.roots.roots.set i ref, c.roots.types⟩, c.handles⟩
      ⟨t.writable, t.roots.put ⟨e.name, e.type, ref⟩, t.handles⟩ := by
  have hput := registry_put hi ref
  exact ⟨h.writable, by rw [h.roots, hput], by rw [hput]; exact h.handles⟩

theorem Represents.putNew (h : Represents c t) (hname : name ∉ t.roots.entries.map Entry.name) (tag : Nat)
    (ref : NodeRef) :
    Represents ⟨c.writable, ((c.roots.add name tag).setRootRef c.roots.names.length ref).1, c.handles⟩
      ⟨t.writable, t.roots.put ⟨name, tag, ref⟩, t.handles⟩ := by
  have hput := registry_put_new hname tag ref
  refine ⟨h.writable, by rw [h.roots, hput], h.handles.imp fun i n hi => ?_⟩
  rw [hput]
  exact (List.getElem?_append_left (List.getElem?_eq_some_iff.mp hi).1).trans hi

theorem agree_setRoot (h : Represents c t) (name : N) (ref : NodeRef) :
    Agree (txCall c (.setRoot name ref)) (mapCall t (.setRoot name ref)) := by
  refine h.write fun _ => ?_
  rw [h.roots]
  cases hl : t.roots.lookup name with
  | none =>
    obtain ⟨hfind, hname⟩ := find_none hl
    rw [hfind]
    refine ⟨h.roots ▸ h.putNew hname rawTypeTag ref, ?_⟩
    simp [Registry.setRootRef, Registry.root, Registry.add, Roots.registry]
  | some e =>
    obtain ⟨i, hfind, hi, rfl⟩ := find_some hl
    rw [hfind]
    dsimp only
    rw [slot_type hi]
    split
    · exact ⟨h, rfl⟩
    · rename_i htype
      have htype : e.type = rawTypeTag := not_not.mp htype
      rw [← htype]
      refine ⟨h.roots ▸ h.put hi ref, ?_⟩
      rw [Registry.setRootRef, slot_root hi]

theorem agree_tree (h : Represents c t) (T : ElementType) (name : N) (fresh : NodeRef) :
    Agree (txCall c (.tree T name fresh)) (mapCall t (.tree T name fresh)) := by
  rw [txCall, mapCall, h.roots]
  cases hl : t.roots.lookup name with
  | none =>
    obtain ⟨hfind, hname⟩ := find_none hl
    rw [hfind]
    refine h.write fun hwritable => ?_
    have hnew : (t.roots.registry.add name T.tag).root t.roots.registry.names.length = 0 := by
      simp [Registry.root, Registry.add, Roots.registry]
    have hput := h.putNew hname T.tag fresh
    rw [h.roots] at hput
    rw [openTree, hnew, if_neg (not_not.mpr rfl), Tx.write, if_pos hwritable]
    refine ⟨hput.opened ?_, rfl⟩
    rw [registry_put_new hname]
    exact List.getElem?_concat_length
  | some e =>
    obtain ⟨i, hfind, hi, rfl⟩ := find_some hl
    rw [hfind]
    dsimp only
    rw [slot_type hi]
    split
    · exact ⟨h, rfl⟩
    · rename_i htype
      have htype : e.type = T.tag := not_not.mp htype
      rw [openTree, h.roots, slot_root hi]
      split
      · exact ⟨h.roots ▸ h.opened (slot_name hi), rfl⟩
      · refine h.write fun _ => ⟨?_, rfl⟩
        have hput := h.put hi fresh
        rw [h.roots] at hput
        rw [← htype]
        refine hput.opened ?_
        rw [registry_put hi]
        exact slot_name hi

theorem agree_change (h : Represents c t) (handle : Nat) (ref : NodeRef) :
    Agree (txCall c (.change handle ref)) (mapCall t (.change handle ref)) := by
  obtain ⟨hlength, hall⟩ := List.forall₂_iff_get.mp h.handles
  rw [txCall, mapCall]
  by_cases hlt : handle < c.handles.length
  · have hname := hall handle hlt (hlength ▸ hlt)
    obtain ⟨e, hi, he⟩ := Option.map_eq_some_iff.mp ((List.getElem?_map ..).symm.trans hname)
    rw [List.getElem?_eq_getElem hlt, List.getElem?_eq_getElem (hlength ▸ hlt), Option.bind_some,
      show t.handles[handle] = e.name from he.symm, lookup_at hi]
    exact h.write fun _ => ⟨h.put hi ref, rfl⟩
  · rw [List.getElem?_eq_none (by omega), List.getElem?_eq_none (by omega)]
    exact ⟨h, rfl⟩

theorem represents_call (h : Represents c t) (call : Call N) : Agree (txCall c call) (mapCall t call) := by
  cases call with
  | rootCount => exact ⟨h, by simp [txCall, mapCall, h.roots, Roots.registry]⟩
  | rootName i => exact ⟨h, by simp [txCall, mapCall, h.roots, Roots.registry]⟩
  | getRoot name =>
    refine ⟨h, ?_⟩
    rw [txCall, mapCall, h.roots]
    cases hl : t.roots.lookup name with
    | none => rw [(find_none hl).1]; rfl
    | some e =>
      obtain ⟨i, hfind, hi, -⟩ := find_some hl
      rw [hfind, Option.map_some, Option.map_some, slot_root hi]
  | setRoot name ref => exact agree_setRoot h name ref
  | eraseRoot name =>
    refine h.write fun _ => ?_
    rw [h.roots]
    cases hl : t.roots.lookup name with
    | none =>
      rw [(find_none hl).1]
      exact ⟨h, rfl⟩
    | some e =>
      obtain ⟨i, hfind, hi, rfl⟩ := find_some hl
      rw [hfind]
      refine ⟨⟨h.writable, (registry_remove hi).symm, .nil⟩, ?_⟩
      dsimp only
      rw [Registry.erase, slot_root hi]
  | tree T name fresh => exact agree_tree h T name fresh
  | change handle ref => exact agree_change h handle ref

theorem represents_run : ∀ (calls : List (Call N)) {c : Tx (Registry N) Nat} {t : Tx (Roots N) N}, Represents c t →
    Represents (c.run txCall calls).1 (t.run mapCall calls).1 ∧ (c.run txCall calls).2 = (t.run mapCall calls).2
  | [], _, _, h => ⟨h, rfl⟩
  | call :: calls, c, t, h => by
    obtain ⟨hstep, hresult⟩ := represents_call h call
    obtain ⟨hrun, hresults⟩ := represents_run calls hstep
    exact ⟨hrun, congrArg₂ List.cons hresult hresults⟩

/-- `tree` has not added a name when it throws. -/
theorem atomic_txCall (c : Tx (Registry N) Nat) (call : Call N) : Atomic c (txCall c call) := by
  cases call with
  | rootCount | rootName | getRoot => exact fun _ _ => rfl
  | setRoot name ref =>
    refine .write fun _ => ?_
    split
    · exact fun _ => nofun
    · split
      · exact fun _ _ => rfl
      · exact fun _ => nofun
  | eraseRoot name =>
    refine .write fun _ => ?_
    split
    · exact fun _ _ => rfl
    · exact fun _ => nofun
  | tree T name fresh =>
    rw [txCall]
    split
    · exact .write fun hwritable => atomic_openTree (.inl hwritable)
    · split
      · exact fun _ _ => rfl
      · exact atomic_openTree (.inr rfl)
  | change handle ref =>
    rw [txCall]
    split
    · exact fun _ _ => rfl
    · exact .write fun _ _ => nofun

/-- **The registry is a finite map.**  From the registry of any map every sequence of calls returns what it returns on
the map, and leaves the registry of the map that the calls lead to: the names stay distinct, with a root and a type
each. A call that throws changes nothing. -/
theorem tx_run_eq (m : Roots N) (writable : Bool) (calls : List (Call N)) :
    ((⟨writable, m.registry, []⟩ : Tx _ Nat).run txCall calls).2 =
      ((⟨writable, m, []⟩ : Tx _ N).run mapCall calls).2 ∧
    ((⟨writable, m.registry, []⟩ : Tx _ Nat).run txCall calls).1.roots =
      ((⟨writable, m, []⟩ : Tx _ N).run mapCall calls).1.roots.registry ∧
    ∀ call, Atomic ((⟨writable, m.registry, []⟩ : Tx _ Nat).run txCall calls).1
      (txCall ((⟨writable, m.registry, []⟩ : Tx _ Nat).run txCall calls).1 call) := by
  obtain ⟨hrun, hresults⟩ := represents_run calls (c := ⟨writable, m.registry, []⟩) (t := ⟨writable, m, []⟩)
    ⟨rfl, rfl, .nil⟩
  exact ⟨hresults, hrun.roots, atomic_txCall _⟩

end Refinement

end Llbt.NamedRoots
