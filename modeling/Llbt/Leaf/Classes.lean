import Llbt.Leaf.Strings
import Llbt.BPlusTree.LowerBound

/-!
# Binary and string leaves in a tree

`binaryClass` and `stringClass` are the leaf array classes of trees of `BinaryData` and of `StringData`.  A value may be
refused by such a leaf, or be read back as null, so these classes do not behave as lists without conditions; what a tree
of them needs in order to be searched is only that the leaves can be read.

* `binary_readable`, `strings_readable` — a leaf that stores the values `vs` is read as `vs`, whatever its
  representation;
* `Value.less` — `operator<` of both types, with the law that `lower_bound` asks for (`less_of_not_less`).
-/

set_option autoImplicit false

namespace Llbt.Leaf

open Ownership BPlusTree

namespace Strings

def ref : Strings → Ref
  | short s => s.ref
  | medium m => m.ref
  | big b => b.ref

def blocks : Strings → List Ref
  | short s => [s.ref]
  | medium m => m.blocks
  | big b => b.blocks

def setAll (l : Strings) : List (Nat × Value) → Prog Strings
  | [] => pure l
  | (ndx, v) :: rest => do
    let l ← l.set ndx v
    l.setAll rest

end Strings

/-- `ArrayBinary` as the leaf of a tree. -/
def binaryClass : LeafClass Value where
  Leaf := Binary
  ref := Binary.ref
  blocks := Binary.blocks
  size := Binary.size
  get := Binary.get
  create := Binary.create
  insert := Binary.insert
  set := Binary.set
  erase := Binary.erase
  clear := Binary.clear
  move := Binary.move
  createFrom := Binary.createFrom
  append := Binary.append
  setMany := Binary.setMany

/-- `ArrayString` as the leaf of a tree. -/
def stringClass : LeafClass Value where
  Leaf := Strings
  ref := Strings.ref
  blocks := Strings.blocks
  size := Strings.size
  get := Strings.get
  create := Strings.create
  insert := Strings.insert
  set := Strings.set
  erase := Strings.erase
  clear := Strings.clear
  move := Strings.move
  createFrom vs := do
    let l ← Strings.create
    l.addAll vs
  append := Strings.addAll
  setMany := Strings.setAll

theorem binary_readable {l : Binary} {vs : List Value} (h : l.Holds vs) :
    SearchableNode binaryClass 0 l ∧ leafValues binaryClass l = vs :=
  readable_of_get h.size_eq fun _ _ hv => h.get_eq hv

theorem strings_readable {l : Strings} {vs : List Value} (h : l.Holds vs) :
    SearchableNode stringClass 0 l ∧ leafValues stringClass l = vs :=
  readable_of_get h.size_eq fun _ _ hv => h.get_eq hv

/-! ## The order of values -/

/-- `memcmp` over the length of the shorter one. -/
def memcmp : Bytes → Bytes → Ordering
  | a :: as, b :: bs => if a < b then .lt else if b < a then .gt else memcmp as bs
  | _, _ => .eq

/-- `operator<` of `BinaryData` and `StringData`: null comes before every other value. -/
def Value.less : Value → Value → Bool
  | some a, some b => memcmp a b == .lt || (memcmp a b == .eq && decide (a.length < b.length))
  | a, b => a.isNone && b.isSome

theorem less_cons (x y : UInt8) (as bs : Bytes) : Value.less (some (x :: as)) (some (y :: bs)) = true ↔
    x < y ∨ x = y ∧ Value.less (some as) (some bs) = true := by
  simp only [Value.less, memcmp]
  by_cases hlt : x < y
  · simp [hlt]
  · by_cases hgt : y < x
    · have hne : x ≠ y := fun h => by
        rw [h] at hgt
        exact absurd hgt (UInt8.lt_irrefl y)
      simp [hlt, hgt, hne]
    · have heq : x = y := UInt8.le_antisymm (UInt8.not_lt.mp hgt) (UInt8.not_lt.mp hlt)
      simp [heq]

/-- **The order fits `lower_bound`**: what is not above a value below `v` is below `v`. -/
theorem less_of_not_less : ∀ a b v : Value, ¬ Value.less b a = true → Value.less b v = true → Value.less a v = true
  | _, b, none, _, hbv => by cases b <;> simp [Value.less] at hbv
  | none, _, some v, _, _ => rfl
  | some a, none, some v, hba, _ => absurd rfl hba
  | some [], some b, some v, _, hbv => by
    cases v with
    | nil => cases b <;> simp [Value.less, memcmp] at hbv
    | cons w vs => simp [Value.less, memcmp]
  | some (x :: as), some [], some v, hba, _ => absurd (by simp [Value.less, memcmp]) hba
  | some (x :: as), some (y :: bs), some [], _, hbv => by simp [Value.less, memcmp] at hbv
  | some (x :: as), some (y :: bs), some (w :: vs), hba, hbv => by
    rw [less_cons] at hba hbv ⊢
    have hyx : ¬ y < x := fun h => hba (Or.inl h)
    rcases hbv with hyw | ⟨rfl, hbv⟩
    · exact Or.inl (UInt8.lt_of_le_of_lt (UInt8.not_lt.mp hyx) hyw)
    · by_cases hxy : x = y
      · subst hxy
        exact Or.inr ⟨rfl, less_of_not_less _ _ _ (fun h => hba (Or.inr ⟨rfl, h⟩)) hbv⟩
      · exact Or.inl (UInt8.lt_of_le_of_ne (UInt8.not_lt.mp hyx) hxy)

end Llbt.Leaf
