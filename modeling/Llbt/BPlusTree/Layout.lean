import Llbt.BPlusTree.Tree
import Llbt.Lib.Segments

/-!
# What the helpers of `BPlusTreeInner` do to the slots of a node

The refs of a node and of its offsets array change with every copy; what a node holds is its
layout (the form without the ref of the offsets array), its children and its tree size.
`Inner.Holds n lay cs sz` states these three, and each helper of the model has one lemma that says
how it changes them: `holds_touch`, `holds_setChild`, `holds_ensureOffsets`, `holds_move` and so on.

`Located size lay cs` is the invariant of slot 0: the layout places the children where their sizes
put them.  `Located.lookup` — the child chosen for an index is the one whose range holds it.
-/

set_option autoImplicit false

namespace Llbt.BPlusTree

open Ownership Segments

/-- Slot 0 of an inner node, without the ref of the offsets array. -/
inductive Layout where
  | compact (elemsPerChild : Nat)
  | general (offsets : List Nat)
  deriving DecidableEq

def Form.layout : Form → Layout
  | .compact e => .compact e
  | .general _ offsets => .general offsets

namespace Layout

def isCompact : Layout → Bool
  | .compact _ => true
  | .general _ => false

def map (f : List Nat → List Nat) : Layout → Layout
  | .compact e => .compact e
  | .general offsets => .general (f offsets)

def childOffset (lay : Layout) (i : Nat) : Nat :=
  match lay with
  | .compact e => i * e
  | .general offsets => if i = 0 then 0 else offsets.getD (i - 1) 0

def childIndex (lay : Layout) (i : Nat) : Nat :=
  match lay with
  | .compact e => i / e
  | .general offsets => upperBound offsets i

/-- The layout after `ensure_offsets` in a node with `k` children. -/
def ensured (k : Nat) : Layout → Layout
  | .compact e => .general ((List.range (k - 1)).map (fun i => (i + 1) * e))
  | .general offsets => .general offsets

end Layout

namespace Inner

variable {C : Type}

/-- What the slots of a node hold. -/
structure Holds (n : Inner C) (lay : Layout) (cs : List C) (sz : Nat) : Prop where
  layout : n.form.layout = lay
  children : n.children = cs
  treeSize : n.treeSize = sz

theorem holds_self (n : Inner C) : n.Holds n.form.layout n.children n.treeSize := ⟨rfl, rfl, rfl⟩

variable {n : Inner C} {lay : Layout} {cs : List C} {sz : Nat}

theorem Holds.childOffset_eq (h : n.Holds lay cs sz) (i : Nat) :
    n.childOffset i = lay.childOffset i := by
  rw [← h.layout]
  unfold childOffset
  cases n.form <;> rfl

theorem Holds.childIndex_eq (h : n.Holds lay cs sz) (i : Nat) : n.childIndex i = lay.childIndex i := by
  rw [← h.layout]
  unfold childIndex
  cases n.form <;> rfl

theorem Holds.isCompact_eq (h : n.Holds lay cs sz) : n.form.isCompact = lay.isCompact := by
  rw [← h.layout]
  cases n.form <;> rfl

theorem yields_child {i : Nat} {c : C} (hc : n.children[i]? = some c) :
    Yields (n.child i) (fun c' => c = c') := by
  unfold child
  rw [hc]
  exact Yields.pure rfl

theorem holds_touch (h : n.Holds lay cs sz) : Yields n.touch (·.Holds lay cs sz) :=
  (Yields.write n.ref).bind fun _ _ => Yields.pure ⟨h.layout, h.children, h.treeSize⟩

theorem holds_shrink (h : n.Holds lay cs sz) : Yields n.shrink (·.Holds lay cs sz) :=
  (Yields.copyOnWrite n.ref).bind fun _ _ => Yields.pure ⟨h.layout, h.children, h.treeSize⟩

theorem holds_setChild (ref : C → Ref) (h : n.Holds lay cs sz) {i : Nat} (hi : i < cs.length) (c : C) :
    Yields (n.setChild ref i c) (·.Holds lay (cs.set i c) sz) := by
  have hold : n.children[i]? = some cs[i] := by rw [h.children, List.getElem?_eq_getElem hi]
  refine (yields_child hold).bind fun old _ => ?_
  have hset : { n with children := n.children.set i c }.Holds lay (cs.set i c) sz :=
    ⟨h.layout, by rw [h.children], h.treeSize⟩
  dsimp only
  split
  · exact Yields.pure hset
  · exact holds_touch hset

theorem holds_setOffsets (h : n.Holds lay cs sz) (f : List Nat → List Nat) :
    Yields (n.setOffsets f) (·.Holds (lay.map f) cs sz) := by
  obtain ⟨hlay, hcs, hsz⟩ := h
  unfold setOffsets
  cases hform : n.form with
  | compact e =>
    rw [hform] at hlay
    exact Yields.pure ⟨by rw [hform, ← hlay]; rfl, hcs, hsz⟩
  | general r offsets =>
    rw [hform] at hlay
    refine (Yields.write r).bind fun r' _ => ?_
    have hnew : { n with form := .general r' (f offsets) }.Holds (lay.map f) cs sz :=
      ⟨by rw [← hlay]; rfl, hcs, hsz⟩
    dsimp only
    split
    · exact Yields.pure hnew
    · exact holds_touch hnew

theorem adjustFrom_of_le (f : Nat → Nat) {k : Nat} {xs : List Nat} (h : xs.length ≤ k) :
    adjustFrom f k xs = xs := by
  rw [adjustFrom, List.take_of_length_le h, List.drop_of_length_le h, List.map_nil, List.append_nil]

theorem holds_adjustOffsets (h : n.Holds lay cs sz) (f : Nat → Nat) (k : Nat) :
    Yields (n.adjustOffsets f k) (·.Holds (lay.map (adjustFrom f k)) cs sz) := by
  unfold adjustOffsets
  cases hform : n.form with
  | compact e =>
    have hlay : lay = .compact e := by rw [← h.layout, hform]; rfl
    exact Yields.pure ⟨by rw [hform, hlay]; rfl, h.children, h.treeSize⟩
  | general r offsets =>
    have hlay : lay = .general offsets := by rw [← h.layout, hform]; rfl
    dsimp only
    split
    · exact holds_setOffsets h (adjustFrom f k)
    · -- No offset lies at or beyond `k`.
      rename_i hk
      refine Yields.pure ⟨?_, h.children, h.treeSize⟩
      rw [hform, hlay, Layout.map, adjustFrom_of_le f (Nat.not_lt.mp hk)]
      rfl

theorem holds_setTreeSize (h : n.Holds lay cs sz) (sz' : Nat) :
    Yields (n.setTreeSize sz') (·.Holds lay cs sz') :=
  (holds_touch h).bind fun _ h' => Yields.pure ⟨h'.layout, h'.children, rfl⟩

theorem holds_ensureOffsets (h : n.Holds lay cs sz) :
    Yields n.ensureOffsets (·.Holds (lay.ensured cs.length) cs sz) := by
  unfold ensureOffsets
  cases hform : n.form with
  | compact e =>
    have hlay : lay = .compact e := by rw [← h.layout, hform]; rfl
    refine Yields.alloc.bind fun r _ => (holds_touch h).bind fun n' h' => Yields.pure ?_
    exact ⟨by rw [hlay, ← h'.children]; rfl, h'.children, h'.treeSize⟩
  | general r offsets =>
    have hlay : lay = .general offsets := by rw [← h.layout, hform]; rfl
    exact Yields.pure ⟨by rw [hform, hlay]; rfl, h.children, h.treeSize⟩

theorem holds_create (e : Nat) : Yields (create e : Prog (Inner C)) (·.Holds (.compact e) [] 0) :=
  Yields.alloc.bind fun _ _ => Yields.pure ⟨rfl, rfl, rfl⟩

theorem holds_createGeneral : Yields (createGeneral : Prog (Inner C)) (·.Holds (.general []) [] 0) :=
  (holds_create 0).bind fun _ h => holds_ensureOffsets h

/-- `add_bp_node_ref` on the offsets: zero stands for the first child and is not stored. -/
def withOffset (offset : Nat) (offsets : List Nat) : List Nat :=
  if offset = 0 then offsets else offsets ++ [offset]

theorem holds_addBpNodeRef (h : n.Holds lay cs sz) (c : C) (offset : Nat) :
    Yields (n.addBpNodeRef c offset) (·.Holds (lay.map (withOffset offset)) (cs ++ [c]) sz) := by
  refine (holds_touch h).bind fun n' h' => ?_
  have hadd : { n' with children := n'.children ++ [c] }.Holds lay (cs ++ [c]) sz :=
    ⟨h'.layout, by rw [h'.children], h'.treeSize⟩
  dsimp only
  split
  · rename_i h0
    refine Yields.pure ⟨?_, hadd.children, hadd.treeSize⟩
    rw [hadd.layout]
    cases lay <;> simp [Layout.map, withOffset, h0]
  · rename_i h0
    have hmap : withOffset offset = (· ++ [offset]) := by
      funext offsets
      simp [withOffset, h0]
    rw [hmap]
    exact holds_setOffsets hadd _

theorem holds_addBpNodeRefs : ∀ (moved : List (C × Nat)) {n : Inner C} {lay : Layout} {cs : List C},
    n.Holds lay cs sz → Yields (n.addBpNodeRefs moved)
      (·.Holds (lay.map (fun os => moved.foldl (fun os p => withOffset p.2 os) os))
        (cs ++ moved.map Prod.fst) sz)
  | [], n, lay, cs, h => by
    refine Yields.pure ⟨?_, ?_, h.treeSize⟩
    · rw [h.layout]
      cases lay <;> rfl
    · rw [h.children]
      simp
  | (c, offset) :: rest, n, lay, cs, h => by
    refine (holds_addBpNodeRef h c offset).bind fun n' h' => ?_
    refine (holds_addBpNodeRefs rest h').mono fun n'' h'' => ⟨?_, ?_, h''.treeSize⟩
    · rw [h''.layout]
      cases lay <;> rfl
    · rw [h''.children]
      simp

/-- What `move` hands to the destination: the children from `ndx` on with their new offsets. -/
def movedChildren (lay : Layout) (cs : List C) (ndx : Nat) (adj : Int) : List (C × Nat) :=
  (cs.zipIdx.drop ndx).map (fun p => (p.1, ((lay.childOffset p.2 : Int) - adj).toNat))

theorem holds_truncate (h : n.Holds lay cs sz) (ndx : Nat) : Yields (n.truncate ndx)
    (·.Holds (if 0 < ndx then lay.map (·.take (ndx - 1)) else lay) (cs.take ndx) sz) := by
  refine (holds_shrink h).bind fun n' hn => ?_
  have htake : { n' with children := n'.children.take ndx }.Holds lay (cs.take ndx) sz :=
    ⟨hn.layout, by rw [hn.children], hn.treeSize⟩
  dsimp only
  split
  · exact holds_setOffsets htake _
  · exact Yields.pure htake

theorem holds_move {dst : Inner C} {lay' : Layout} {cs' : List C} {sz' : Nat} (h : n.Holds lay cs sz)
    (h' : dst.Holds lay' cs' sz') (ndx : Nat) (adj : Int) :
    Yields (n.move dst ndx adj) (fun p =>
      p.1.Holds (if 0 < ndx then lay.map (·.take (ndx - 1)) else lay) (cs.take ndx) sz ∧
      p.2.Holds (lay'.map (fun os => (movedChildren lay cs ndx adj).foldl (fun os p => withOffset p.2 os) os))
        (cs' ++ (movedChildren lay cs ndx adj).map Prod.fst) sz') := by
  have hmoved : (n.children.zipIdx.drop ndx).map
      (fun p => (p.1, ((n.childOffset p.2 : Int) - adj).toNat)) = movedChildren lay cs ndx adj := by
    simp only [h.childOffset_eq, h.children, movedChildren]
  unfold move
  rw [hmoved]
  exact (holds_addBpNodeRefs _ h').bind fun _ hdst => (holds_truncate h ndx).bind fun _ hn =>
    Yields.pure ⟨hn, hdst⟩

theorem holds_newSibling (h : n.Holds lay cs sz) :
    Yields n.newSibling (·.Holds (lay.map (fun _ => [])) [] 0) := by
  unfold newSibling
  cases hform : n.form with
  | general r offsets =>
    have hlay : lay = .general offsets := by rw [← h.layout, hform]; rfl
    rw [hlay]
    exact holds_createGeneral
  | compact e =>
    have hlay : lay = .compact e := by rw [← h.layout, hform]; rfl
    rw [hlay]
    exact holds_create e

/-- The offsets after `erase_and_destroy_bp_node`. -/
def dropOffset (ndx : Nat) (offsets : List Nat) : List Nat :=
  if ndx < offsets.length then offsets.eraseIdx ndx else offsets.eraseIdx (offsets.length - 1)

theorem holds_eraseAndDestroyBpNode (blocks : C → List Ref) (h : n.Holds lay cs sz) {ndx : Nat}
    (hndx : ndx < cs.length) :
    Yields (n.eraseAndDestroyBpNode blocks ndx) (·.Holds (lay.map (dropOffset ndx)) (cs.eraseIdx ndx) sz) := by
  have hc : n.children[ndx]? = some cs[ndx] := by rw [h.children, List.getElem?_eq_getElem hndx]
  refine (yields_child hc).bind fun c _ => (holds_shrink h).bind fun n' hn => ?_
  have herase : { n' with children := n'.children.eraseIdx ndx }.Holds lay (cs.eraseIdx ndx) sz :=
    ⟨hn.layout, by rw [hn.children], hn.treeSize⟩
  refine (Yields.freeAll (blocks c)).bind fun _ _ => ?_
  dsimp only
  cases hform : n'.form with
  | compact e =>
    have hlay : lay = .compact e := by rw [← hn.layout, hform]; rfl
    exact Yields.pure ⟨by rw [hlay]; rfl, herase.children, herase.treeSize⟩
  | general r offsets =>
    have hlay : lay = .general offsets := by rw [← hn.layout, hform]; rfl
    rw [hform] at herase
    -- Each branch edits the offsets as `dropOffset` says.
    have hedit : ∀ f : List Nat → List Nat, f offsets = dropOffset ndx offsets →
        lay.map f = lay.map (dropOffset ndx) := by
      intro f hf
      rw [hlay, Layout.map, Layout.map, hf]
    dsimp only
    split
    · rename_i h0
      refine Yields.pure ⟨?_, herase.children, herase.treeSize⟩
      rw [herase.layout, hlay, Layout.map, List.eq_nil_of_length_eq_zero h0]
      rfl
    · split
      · rename_i hlt
        rw [← hedit (·.eraseIdx ndx) (by simp [dropOffset, hlt])]
        exact holds_setOffsets herase _
      · rename_i hlt
        rw [← hedit (·.eraseIdx (offsets.length - 1)) (by simp [dropOffset, hlt])]
        exact holds_setOffsets herase _

end Inner

end Llbt.BPlusTree
