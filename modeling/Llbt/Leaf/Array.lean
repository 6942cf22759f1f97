import Llbt.BPlusTree.Invariant

/-!
# Arrays, and the leaves that are one array (`array.hpp`, `array_basic_tpl.hpp`)

`Arr α` is an accessor of one block that holds elements of type `α`.  A change that needs more room
may move the block (`write`), any other change only copies a read-only one (`copyOnWrite`).

`ArrayInteger` (the leaf of integer trees) and `BasicArray<T>` (of float and double trees) are such
arrays.  They differ in two places: `Array::truncate` does nothing when the size stays, and
`Array::move` makes room once where `BasicArray::move` adds element by element.

* `integerClass`, `basicClass` — the two leaf classes;
* `integerListLike`, `basicListLike` — they behave as lists.
-/

set_option autoImplicit false

namespace Llbt.Leaf

open Ownership BPlusTree

/-- The accessor of one block. -/
structure Arr (α : Type) where
  ref : Ref
  elems : List α
  deriving DecidableEq

namespace Arr

variable {α : Type}

def create (elems : List α) : Prog (Arr α) := do
  let r ← alloc
  pure ⟨r, elems⟩

/-- A change that may need more room. -/
def grow (a : Arr α) (elems : List α) : Prog (Arr α) := do
  let r ← write a.ref
  pure ⟨r, elems⟩

/-- A change that needs no more room. -/
def change (a : Arr α) (elems : List α) : Prog (Arr α) := do
  let r ← copyOnWrite a.ref
  pure ⟨r, elems⟩

def insert (a : Arr α) (ndx : Nat) (value : α) : Prog (Arr α) := a.grow (a.elems.insertIdx ndx value)

def add (a : Arr α) (value : α) : Prog (Arr α) := a.grow (a.elems ++ [value])

/-- `set`: nothing is written when the value is already there. -/
def set [DecidableEq α] (a : Arr α) (ndx : Nat) (value : α) : Prog (Arr α) :=
  if a.elems[ndx]? = some value then pure a else a.grow (a.elems.set ndx value)

/-- `BasicArray::set`: all elements have one width, so a new value never needs more room. -/
def setInPlace [DecidableEq α] (a : Arr α) (ndx : Nat) (value : α) : Prog (Arr α) :=
  if a.elems[ndx]? = some value then pure a else a.change (a.elems.set ndx value)

def erase (a : Arr α) (ndx : Nat) : Prog (Arr α) := a.change (a.elems.eraseIdx ndx)

def truncate (a : Arr α) (size : Nat) : Prog (Arr α) :=
  if size = a.elems.length then pure a else a.change (a.elems.take size)

def addAll (a : Arr α) : List α → Prog (Arr α)
  | [] => pure a
  | v :: vs => do
    let a ← a.add v
    a.addAll vs

def setAll [DecidableEq α] (a : Arr α) : List (Nat × α) → Prog (Arr α)
  | [] => pure a
  | (ndx, v) :: rest => do
    let a ← a.set ndx v
    a.setAll rest

def setAllInPlace [DecidableEq α] (a : Arr α) : List (Nat × α) → Prog (Arr α)
  | [] => pure a
  | (ndx, v) :: rest => do
    let a ← a.setInPlace ndx v
    a.setAllInPlace rest

end Arr

/-- `ArrayInteger` as the leaf of a tree. -/
def integerClass : LeafClass Int where
  Leaf := Arr Int
  ref := Arr.ref
  blocks a := [a.ref]
  size a := a.elems.length
  get a ndx := a.elems[ndx]?
  create := Arr.create []
  insert := Arr.insert
  set := Arr.set
  erase := Arr.erase
  clear a := a.truncate 0
  move src dst ndx := do
    let dst ← dst.grow (dst.elems ++ src.elems.drop ndx)
    let src ← src.truncate ndx
    pure (src, dst)
  createFrom vs := do
    let a ← Arr.create []
    a.addAll vs
  append := Arr.addAll
  setMany := Arr.setAll

/-- `BasicArray<T>` as the leaf of a tree. -/
def basicClass (α : Type) [DecidableEq α] : LeafClass α where
  Leaf := Arr α
  ref := Arr.ref
  blocks a := [a.ref]
  size a := a.elems.length
  get a ndx := a.elems[ndx]?
  create := Arr.create []
  insert := Arr.insert
  set := Arr.setInPlace
  erase := Arr.erase
  clear a := a.change []
  move src dst ndx := do
    let dst ← dst.addAll (src.elems.drop ndx)
    let src ← src.change (src.elems.take ndx)
    pure (src, dst)
  createFrom vs := do
    let a ← Arr.create []
    a.addAll vs
  append := Arr.addAll
  setMany := Arr.setAllInPlace

/-! ## Lists -/

namespace Arr

variable {α : Type}

theorem yields_create (xs : List α) : Yields (create xs) (fun a => True ∧ a.elems = xs) :=
  Yields.alloc.bind fun _ _ => Yields.pure ⟨trivial, rfl⟩

theorem yields_grow (a : Arr α) (xs : List α) : Yields (a.grow xs) (fun a' => True ∧ a'.elems = xs) :=
  (Yields.write a.ref).bind fun _ _ => Yields.pure ⟨trivial, rfl⟩

theorem yields_change (a : Arr α) (xs : List α) : Yields (a.change xs) (fun a' => True ∧ a'.elems = xs) :=
  (Yields.copyOnWrite a.ref).bind fun _ _ => Yields.pure ⟨trivial, rfl⟩

theorem yields_truncate (a : Arr α) (n : Nat) :
    Yields (a.truncate n) (fun a' => True ∧ a'.elems = a.elems.take n) := by
  unfold truncate
  split
  · rename_i h
    exact Yields.pure ⟨trivial, by rw [h, List.take_length]⟩
  · exact yields_change a _

theorem yields_addAll : ∀ (vs : List α) (a : Arr α),
    Yields (a.addAll vs) (fun a' => True ∧ a'.elems = a.elems ++ vs)
  | [], a => Yields.pure ⟨trivial, by rw [List.append_nil]⟩
  | v :: vs, a => (yields_grow a (a.elems ++ [v])).bind fun a' ha' =>
    (yields_addAll vs a').mono fun a'' ha'' => ⟨trivial, by rw [ha''.2, ha'.2, List.append_assoc]; rfl⟩

theorem set_eq_self {xs : List α} {i : Nat} {v : α} (h : xs[i]? = some v) : xs.set i v = xs := by
  obtain ⟨hi, rfl⟩ := List.getElem?_eq_some_iff.mp h
  exact List.set_getElem_self hi

theorem yields_set [DecidableEq α] (a : Arr α) (i : Nat) (v : α) :
    Yields (a.set i v) (fun a' => True ∧ a'.elems = a.elems.set i v) := by
  unfold set
  split
  · rename_i h
    exact Yields.pure ⟨trivial, (set_eq_self h).symm⟩
  · exact yields_grow a _

theorem yields_setInPlace [DecidableEq α] (a : Arr α) (i : Nat) (v : α) :
    Yields (a.setInPlace i v) (fun a' => True ∧ a'.elems = a.elems.set i v) := by
  unfold setInPlace
  split
  · rename_i h
    exact Yields.pure ⟨trivial, (set_eq_self h).symm⟩
  · exact yields_change a _

end Arr

def integerListLike : ListLike integerClass where
  Valid _ := True
  values := Arr.elems
  size_eq _ _ := rfl
  get_eq _ _ _ _ := rfl
  create := Arr.yields_create []
  insert a _ _ _ _ := Arr.yields_grow a _
  set a i v _ _ := Arr.yields_set a i v
  erase a _ _ _ := Arr.yields_change a _
  clear a _ := Arr.yields_truncate a 0
  move src dst i _ _ _ := (Arr.yields_grow dst _).bind fun _ hdst =>
    (Arr.yields_truncate src i).bind fun _ hsrc => Yields.pure ⟨trivial, hsrc.2, trivial, hdst.2⟩

def basicListLike (α : Type) [DecidableEq α] : ListLike (basicClass α) where
  Valid _ := True
  values := Arr.elems
  size_eq _ _ := rfl
  get_eq _ _ _ _ := rfl
  create := Arr.yields_create []
  insert a _ _ _ _ := Arr.yields_grow a _
  set a i v _ _ := Arr.yields_setInPlace a i v
  erase a _ _ _ := Arr.yields_change a _
  clear a _ := Arr.yields_change a []
  move src dst _ _ _ _ := (Arr.yields_addAll _ dst).bind fun _ hdst =>
    (Arr.yields_change src _).bind fun _ hsrc => Yields.pure ⟨trivial, hsrc.2, trivial, hdst.2⟩

end Llbt.Leaf
