import Llbt.Lib.Ownership

/-!
# The B+tree (`bplustree.hpp`, `bplustree.cpp`)

`Node L h` is a node whose leaves are `h` levels below it; an inner node is `Inner C` over
children of type `C`, so every level of the source's recursion is one instance of the same
functions.  A node is given by what its block holds: the slots of `BPlusTreeInner` are the form
(slot 0: the tagged elements per child, or the ref of the offsets array), the children, and the
tagged tree size.

Every function is a `Prog`: it allocates, copies and frees blocks as the source does and returns
the nodes it leaves behind.  An index of `none` is the source's `npos`.

* `Inner.ensureOffsets`, `Inner.addBpNodeRef`, `Inner.move`, `Inner.insertBpNode`,
  `Inner.eraseAndDestroyBpNode` — the helpers of `BPlusTreeInner`;
* `bptreeInsert`, `bptreeErase`, `bptreeUpdate`, `bptreeAccess` — the recursive descents;
* `Tree` — the accessor `BPlusTree<T>`: root, `m_size` and the cached leaf;
* `Tree.insert`, `Tree.set`, `Tree.erase`, `Tree.clear`, `Tree.get` — its operations.
-/

set_option autoImplicit false

namespace Llbt.BPlusTree

open Ownership

/-- The leaf array class (`LeafArray`) that a tree is instantiated with. -/
structure LeafClass (V : Type) where
  Leaf : Type
  /-- The ref of the leaf's top node. -/
  ref : Leaf → Ref
  /-- Every block of the leaf, as `Array::destroy_deep` finds them. -/
  blocks : Leaf → List Ref
  size : Leaf → Nat
  get : Leaf → Nat → Option V
  create : Prog Leaf
  insert : Leaf → Nat → V → Prog Leaf
  set : Leaf → Nat → V → Prog Leaf
  erase : Leaf → Nat → Prog Leaf
  clear : Leaf → Prog Leaf
  /-- `src.move(dst, ndx)`: the elements from `ndx` on go to the end of `dst`. -/
  move : Leaf → Leaf → Nat → Prog (Leaf × Leaf)
  /-- A new leaf with the given elements, as `add_from` makes it. -/
  createFrom : List V → Prog Leaf
  /-- The elements are added at the end, as `add_from` does it. -/
  append : Leaf → List V → Prog Leaf
  /-- The elements at the given positions are replaced, as `set_many` does it. -/
  setMany : Leaf → List (Nat × V) → Prog Leaf

/-- Slot 0 of an inner node: the elements per child, or the array of offsets. -/
inductive Form where
  | compact (elemsPerChild : Nat)
  | general (offsetsRef : Ref) (offsets : List Nat)

def Form.blocks : Form → List Ref
  | .compact _ => []
  | .general r _ => [r]

def Form.isCompact : Form → Bool
  | .compact _ => true
  | .general _ _ => false

structure Inner (C : Type) where
  ref : Ref
  form : Form
  children : List C
  treeSize : Nat

/-- A node with its leaves `h` levels below. -/
def Node (L : Type) : Nat → Type
  | 0 => L
  | h + 1 => Inner (Node L h)

/-- `m_leaf_cache` with `m_cached_leaf_begin` and `m_cached_leaf_end`. -/
structure Cached (L : Type) where
  first : Nat
  last : Nat
  leaf : L

/-- `State`: a node was split, `sibling` is its new right neighbour. -/
structure Split (C : Type) where
  sibling : C
  splitOffset : Nat
  splitSize : Nat

/-- What an insertion leaves of a node.  `cache` is the cached leaf, `none` once invalidated. -/
structure Inserted (L C : Type) where
  node : C
  split : Option (Split C)
  cache : Option (Cached L)

/-- What an erasure leaves of a node, and the node size it reports to the parent. -/
structure Erased (L C : Type) where
  node : C
  nodeSize : Nat
  cache : Option (Cached L)

/-- `ArrayUnsigned::upper_bound`: the number of offsets that are not greater than `n`. -/
def upperBound (offsets : List Nat) (n : Nat) : Nat := (offsets.takeWhile (· ≤ n)).length

/-- `ArrayUnsigned::adjust`: `f` is applied to the elements from `k` on. -/
def adjustFrom (f : Nat → Nat) (k : Nat) (xs : List Nat) : List Nat :=
  xs.take k ++ (xs.drop k).map f

namespace Inner

variable {C : Type}

/-- `get_bp_node_offset`, and its counterpart for the compact form. -/
def childOffset (n : Inner C) (i : Nat) : Nat :=
  match n.form with
  | .compact e => i * e
  | .general _ offsets => if i = 0 then 0 else offsets.getD (i - 1) 0

/-- The child whose range holds element `i`. -/
def childIndex (n : Inner C) (i : Nat) : Nat :=
  match n.form with
  | .compact e => i / e
  | .general _ offsets => upperBound offsets i

def child (n : Inner C) (i : Nat) : Prog C :=
  match n.children[i]? with
  | some c => pure c
  | none => failure

/-- A slot of the node changes, or is added. -/
def touch (n : Inner C) : Prog (Inner C) := do
  let r ← write n.ref
  pure { n with ref := r }

/-- A slot of the node is removed. -/
def shrink (n : Inner C) : Prog (Inner C) := do
  let r ← copyOnWrite n.ref
  pure { n with ref := r }

/-- The child at `i` is now `c`; a child that moved has its ref stored (`update_child_ref`). -/
def setChild (ref : C → Ref) (n : Inner C) (i : Nat) (c : C) : Prog (Inner C) := do
  let old ← n.child i
  let n := { n with children := n.children.set i c }
  if ref c = ref old then pure n else n.touch

/-- The offsets array is changed; if it moved its ref is stored in slot 0. -/
def setOffsets (n : Inner C) (f : List Nat → List Nat) : Prog (Inner C) :=
  match n.form with
  | .compact _ => pure n
  | .general r offsets => do
    let r' ← write r
    let n := { n with form := .general r' (f offsets) }
    if r' = r then pure n else n.touch

/-- `m_offsets.adjust(begin, m_offsets.size(), diff)`: nothing to do beyond the last offset. -/
def adjustOffsets (n : Inner C) (f : Nat → Nat) (k : Nat) : Prog (Inner C) :=
  match n.form with
  | .compact _ => pure n
  | .general _ offsets => if k < offsets.length then n.setOffsets (adjustFrom f k) else pure n

/-- `adjust(size() - 1, ..)` or `set_tree_size`. -/
def setTreeSize (n : Inner C) (sz : Nat) : Prog (Inner C) := do
  let n ← n.touch
  pure { n with treeSize := sz }

def ensureOffsets (n : Inner C) : Prog (Inner C) :=
  match n.form with
  | .general _ _ => pure n
  | .compact e => do
    let r ← alloc
    let n ← n.touch
    pure { n with form := .general r ((List.range (n.children.length - 1)).map (fun i => (i + 1) * e)) }

/-- `create(elems_per_child)`: born without children. -/
def create (elemsPerChild : Nat) : Prog (Inner C) := do
  let r ← alloc
  pure ⟨r, .compact elemsPerChild, [], 0⟩

/-- `create(0)` followed by `ensure_offsets()`. -/
def createGeneral : Prog (Inner C) := do
  let n ← create 0
  n.ensureOffsets

/-- `add_bp_node_ref`: an offset of zero is not stored. -/
def addBpNodeRef (n : Inner C) (c : C) (offset : Nat) : Prog (Inner C) := do
  let n ← n.touch
  let n := { n with children := n.children ++ [c] }
  if offset = 0 then pure n else n.setOffsets (· ++ [offset])

/-- The loop of `move`: the children go to `dst` one by one. -/
def addBpNodeRefs (dst : Inner C) : List (C × Nat) → Prog (Inner C)
  | [] => pure dst
  | (c, offset) :: rest => do
    let dst ← dst.addBpNodeRef c offset
    dst.addBpNodeRefs rest

/-- The end of `move`: the children from `ndx` on and their offsets go. -/
def truncate (n : Inner C) (ndx : Nat) : Prog (Inner C) := do
  let n ← n.shrink
  let n := { n with children := n.children.take ndx }
  if 0 < ndx then n.setOffsets (·.take (ndx - 1)) else pure n

/-- `move`: the children from `ndx` on go to `dst`, their offsets reduced by `adj`. -/
def move (n dst : Inner C) (ndx : Nat) (adj : Int) : Prog (Inner C × Inner C) := do
  let moved := (n.children.zipIdx.drop ndx).map
    (fun p => (p.1, ((n.childOffset p.2 : Int) - adj).toNat))
  let dst ← dst.addBpNodeRefs moved
  let n ← n.truncate ndx
  pure (n, dst)

/-- The new right neighbour of a full node, in the form of the node and still empty. -/
def newSibling (n : Inner C) : Prog (Inner C) :=
  match n.form with
  | .general _ _ => createGeneral
  | .compact e => create e

/-- `insert_bp_node` in a node with room for the new child. -/
def insertWithRoom (n : Inner C) (childNdx : Nat) (sp : Split C) (insertCount : Nat) :
    Prog (Inner C) := do
  let offset := n.childOffset childNdx
  let n ← n.setTreeSize (n.treeSize + insertCount)
  let n ← n.setOffsets (·.insertIdx childNdx (offset + sp.splitOffset))
  let n ← n.adjustOffsets (· + insertCount) (childNdx + 1)
  let n ← n.touch
  pure { n with children := n.children.insertIdx (childNdx + 1) sp.sibling }

/-- `insert_bp_node`, case 1/2: the split child was the last child of the full node, and the new
child goes alone to the new node. -/
def splitBehindLast (n sibling : Inner C) (childNdx : Nat) (sp : Split C) :
    Prog (Inner C × Split (Inner C)) := do
  let offset := n.childOffset childNdx
  let sibling ← sibling.addBpNodeRef sp.sibling 0
  let n ← n.setTreeSize (offset + sp.splitOffset)
  let sibling ← sibling.setTreeSize (sp.splitSize - sp.splitOffset)
  pure (n, ⟨sibling, offset + sp.splitOffset, offset + sp.splitSize⟩)

/-- `insert_bp_node`, case 2/2: the children behind the split one go to the new node. -/
def splitBefore (n sibling : Inner C) (childNdx : Nat) (sp : Split C) :
    Prog (Inner C × Split (Inner C)) := do
  let offset := n.childOffset childNdx
  let newSplitOffset := offset + sp.splitSize
  let newSplitSize := n.treeSize + 1
  let (n, sibling) ← n.move sibling (childNdx + 1) ((newSplitOffset : Int) - 1)
  let n ← n.addBpNodeRef sp.sibling (offset + sp.splitOffset)
  let n ← n.setTreeSize newSplitOffset
  let sibling ← sibling.setTreeSize (newSplitSize - newSplitOffset)
  pure (n, ⟨sibling, newSplitOffset, newSplitSize⟩)

/-- `insert_bp_node`: the split child at `childNdx` gets its new sibling. -/
def insertBpNode (maxSize : Nat) (n : Inner C) (childNdx : Nat) (sp : Split C) (insertCount : Nat) :
    Prog (Inner C × Option (Split (Inner C))) := do
  if n.children.length < maxSize then
    let n ← n.insertWithRoom childNdx sp insertCount
    pure (n, none)
  else
    let sibling ← n.newSibling
    if childNdx + 1 = n.children.length then
      let (n, split) ← n.splitBehindLast sibling childNdx sp
      pure (n, some split)
    else
      let (n, split) ← n.splitBefore sibling childNdx sp
      pure (n, some split)

/-- The form in which `bptree_insert` goes on: only an append may leave a compact node compact. -/
def prepareInsert (n : Inner C) : Option Nat → Prog (Inner C)
  | some _ => n.ensureOffsets
  | none => pure n

/-- The child that `bptree_insert` descends into. -/
def insertIndex (n : Inner C) : Option Nat → Nat
  | some i => n.childIndex i
  | none => n.children.length - 1

/-- `bptree_insert` of an inner node, over the insertion `insertChild` into a child. -/
def bptreeInsert {L : Type} (maxSize : Nat) (ref : C → Ref) (insertCount : Nat)
    (insertChild : C → Option Nat → Nat → Prog (Inserted L C))
    (n : Inner C) (ndx : Option Nat) (myOffset : Nat) : Prog (Inserted L (Inner C)) := do
  let n ← n.prepareInsert ndx
  let childNdx := n.insertIndex ndx
  let offset := n.childOffset childNdx
  let c ← n.child childNdx
  let r ← insertChild c (ndx.map (· - offset)) (offset + myOffset)
  let n ← n.setChild ref childNdx r.node
  match r.split with
  | none =>
    let n ← n.setTreeSize (n.treeSize + insertCount)
    let n ← n.adjustOffsets (· + insertCount) childNdx
    pure ⟨n, none, r.cache⟩
  | some sp =>
    let (n, split) ← n.insertBpNode maxSize childNdx sp insertCount
    pure ⟨n, split, r.cache⟩

def eraseAndDestroyBpNode (blocks : C → List Ref) (n : Inner C) (ndx : Nat) : Prog (Inner C) := do
  let c ← n.child ndx
  let n ← n.shrink
  let n := { n with children := n.children.eraseIdx ndx }
  freeAll (blocks c)
  match n.form with
  | .compact _ => pure n
  | .general _ offsets =>
    if offsets.length = 0 then pure n
    else if ndx < offsets.length then n.setOffsets (·.eraseIdx ndx)
    else n.setOffsets (·.eraseIdx (offsets.length - 1))

/-- The merge of `bptree_erase` for two inner nodes: every child of `sibling` goes to `n`. -/
def merge (n sibling : Inner C) (offsAdj : Int) : Prog (Inner C × Inner C) := do
  let n ← n.ensureOffsets
  let sibling ← sibling.ensureOffsets
  let n ← n.shrink
  let (sibling, n) ← sibling.move n 0 offsAdj
  let n ← n.setTreeSize (n.treeSize + sibling.treeSize)
  pure (n, sibling)

/-- The offset of the sibling at `childNdx + 1` gives way to the one behind it. -/
def passOffset (n : Inner C) (childNdx : Nat) : Prog (Inner C) :=
  match n.form with
  | .general _ offsets =>
    if childNdx + 1 < offsets.length then
      n.setOffsets (fun os => os.set childNdx (os.getD (childNdx + 1) 0))
    else pure n
  | .compact _ => pure n

/-- The child `c` takes over the content of its right neighbour, which is then destroyed.  The
adjustment of the offsets is negative: the neighbour has the bigger offset. -/
def takeOver (ref : C → Ref) (blocks : C → List Ref) (mergeChild : C → C → Int → Prog (C × C))
    (n : Inner C) (childNdx : Nat) (c sibling : C) : Prog (Inner C) := do
  let offsAdj : Int := n.childOffset childNdx - n.childOffset (childNdx + 1)
  let n ← n.passOffset childNdx
  let (c, sibling) ← mergeChild c sibling offsAdj
  let n ← n.setChild ref childNdx c
  let n ← n.setChild ref (childNdx + 1) sibling
  n.eraseAndDestroyBpNode blocks (childNdx + 1)

/-- The end of `bptree_erase`: an emptied child is destroyed, a small one takes over the content
of its right neighbour. -/
def rebalance {L : Type} (maxSize : Nat) (ref : C → Ref) (blocks : C → List Ref) (size : C → Nat)
    (mergeChild : C → C → Int → Prog (C × C)) (leafChild : Bool)
    (n : Inner C) (childNdx : Nat) (r : Erased L C) : Prog (Erased L (Inner C)) := do
  let numChildren := n.children.length
  if r.nodeSize = 0 then
    if numChildren = 1 then pure ⟨n, 0, r.cache⟩
    else
      let n ← n.eraseAndDestroyBpNode blocks childNdx
      pure ⟨n, numChildren - 1, r.cache⟩
  else if r.nodeSize < maxSize / 2 ∧ childNdx < numChildren - 1 then
    let c ← n.child childNdx
    let sibling ← n.child (childNdx + 1)
    if size sibling + r.nodeSize < maxSize * 3 / 4 then
      let n ← n.takeOver ref blocks mergeChild childNdx c sibling
      pure ⟨n, numChildren - 1, if leafChild then none else r.cache⟩
    else pure ⟨n, numChildren, r.cache⟩
  else pure ⟨n, numChildren, r.cache⟩

/-- `bptree_erase` of an inner node, over the erasure `eraseChild` in a child. -/
def bptreeErase {L : Type} (maxSize : Nat) (ref : C → Ref) (blocks : C → List Ref) (size : C → Nat)
    (eraseChild : C → Nat → Nat → Prog (Erased L C)) (mergeChild : C → C → Int → Prog (C × C))
    (leafChild : Bool) (n : Inner C) (i myOffset : Nat) : Prog (Erased L (Inner C)) := do
  let n ← n.ensureOffsets
  let childNdx := n.childIndex i
  let offset := n.childOffset childNdx
  let c ← n.child childNdx
  let r ← eraseChild c (i - offset) (offset + myOffset)
  let n ← n.setChild ref childNdx r.node
  let n ← n.setTreeSize (n.treeSize - 1)
  let n ← n.adjustOffsets (· - 1) childNdx
  n.rebalance maxSize ref blocks size mergeChild leafChild childNdx r

/-- `bptree_access` with a function that changes the leaf it reaches. -/
def bptreeUpdate {L : Type} (ref : C → Ref) (updateChild : C → Nat → Nat → Prog (C × Cached L))
    (n : Inner C) (i myOffset : Nat) : Prog (Inner C × Cached L) := do
  let childNdx := n.childIndex i
  let offset := n.childOffset childNdx
  let c ← n.child childNdx
  let (c, cache) ← updateChild c (i - offset) (offset + myOffset)
  let n ← n.setChild ref childNdx c
  pure (n, cache)

/-- `bptree_access` with a function that only reads: the leaf reached becomes the cached one. -/
def bptreeAccess {L : Type} (accessChild : C → Nat → Nat → Option (Cached L)) (n : Inner C)
    (i myOffset : Nat) : Option (Cached L) := do
  let childNdx := n.childIndex i
  let offset := n.childOffset childNdx
  let c ← n.children[childNdx]?
  accessChild c (i - offset) (offset + myOffset)

end Inner

section Levels

variable {V : Type} (T : LeafClass V) (maxSize : Nat)

def nodeRef : (h : Nat) → Node T.Leaf h → Ref
  | 0, l => T.ref l
  | _ + 1, n => n.ref

/-- The blocks of a subtree, as `Array::destroy_deep` finds them. -/
def nodeBlocks : (h : Nat) → Node T.Leaf h → List Ref
  | 0, l => T.blocks l
  | h + 1, n => n.ref :: (n.form.blocks ++ n.children.flatMap (nodeBlocks h))

def nodeSize : (h : Nat) → Node T.Leaf h → Nat
  | 0, l => T.size l
  | _ + 1, n => n.children.length

def treeSize : (h : Nat) → Node T.Leaf h → Nat
  | 0, l => T.size l
  | _ + 1, n => n.treeSize

def isCompact : (h : Nat) → Node T.Leaf h → Bool
  | 0, _ => true
  | _ + 1, n => n.form.isCompact

/-- What an insertion does when it reaches a leaf: insert `insertCount` elements at an index, or
hang the leaf `leaf` in as the right neighbour (`append_leaf_ref`). -/
inductive InsertFunc (L : Type) where
  | call (insertCount : Nat) (func : L → Nat → Prog L)
  | appendLeaf (insertCount : Nat) (leaf : L)

def InsertFunc.count {L : Type} : InsertFunc L → Nat
  | .call n _ => n
  | .appendLeaf n _ => n

/-- `BPlusTreeLeaf::bptree_insert`.  The last component is the change of the cached leaf's end
(`adjust_leaf_bounds`), or `none` where the cache is invalidated. -/
def leafInsert (func : InsertFunc T.Leaf) (l : T.Leaf) (ndx : Option Nat) :
    Prog (T.Leaf × Option (Split T.Leaf) × Option Nat) := do
  let leafSize := T.size l
  let ndx := min (ndx.getD leafSize) leafSize
  match func with
  | .appendLeaf insertCount leaf =>
    if ndx = leafSize then pure (l, some ⟨leaf, leafSize, leafSize + insertCount⟩, some 0) else failure
  | .call insertCount f =>
    if leafSize < maxSize then
      let l ← f l ndx
      if T.size l = leafSize + insertCount ∧ T.size l ≤ maxSize then pure (l, none, some insertCount)
      else failure
    else if insertCount = 1 then
      let newLeaf ← T.create
      if ndx = leafSize then
        let newLeaf ← f newLeaf 0
        pure (l, some ⟨newLeaf, ndx, leafSize + 1⟩, some 0)
      else
        let (l, newLeaf) ← T.move l newLeaf ndx
        let l ← f l ndx
        pure (l, some ⟨newLeaf, ndx + 1, leafSize + 1⟩, none)
    else failure

/-- `bptree_insert`: below the root a leaf is reached through the leaf cache. -/
def bptreeInsert (func : InsertFunc T.Leaf) :
    (h : Nat) → Node T.Leaf h → Option Nat → Nat → Prog (Inserted T.Leaf (Node T.Leaf h))
  | 0, l, ndx, myOffset => do
    let (l', split, grown) ← leafInsert T maxSize func l ndx
    pure ⟨l', split, grown.map (fun d => ⟨myOffset, myOffset + T.size l + d, l'⟩)⟩
  | h + 1, n, ndx, myOffset =>
    Inner.bptreeInsert maxSize (nodeRef T h) func.count (bptreeInsert func h) n ndx myOffset

/-- The merge of two neighbours: the right one's content goes to the left one. -/
def mergeNodes : (h : Nat) → Node T.Leaf h → Node T.Leaf h → Int → Prog (Node T.Leaf h × Node T.Leaf h)
  | 0, l, sibling, _ => do
    let (sibling, l) ← T.move sibling l 0
    pure (l, sibling)
  | _ + 1, n, sibling, offsAdj => Inner.merge n sibling offsAdj

def bptreeErase :
    (h : Nat) → Node T.Leaf h → Nat → Nat → Prog (Erased T.Leaf (Node T.Leaf h))
  | 0, l, i, myOffset => do
    let l' ← T.erase l i
    pure ⟨l', T.size l', if T.size l' = 0 then none
      else some ⟨myOffset, myOffset + T.size l - 1, l'⟩⟩
  | h + 1, n, i, myOffset =>
    Inner.bptreeErase maxSize (nodeRef T h) (nodeBlocks T h) (nodeSize T h)
      (bptreeErase h) (mergeNodes T h) (h == 0) n i myOffset

/-- `bptree_access` with a function that changes the leaf. -/
def bptreeUpdate (func : T.Leaf → Nat → Prog T.Leaf) :
    (h : Nat) → Node T.Leaf h → Nat → Nat → Prog (Node T.Leaf h × Cached T.Leaf)
  | 0, l, i, myOffset => do
    let l' ← func l i
    pure (l', ⟨myOffset, myOffset + T.size l, l'⟩)
  | h + 1, n, i, myOffset => Inner.bptreeUpdate (nodeRef T h) (bptreeUpdate func h) n i myOffset

/-- `bptree_access` with a function that reads. -/
def bptreeAccess : (h : Nat) → Node T.Leaf h → Nat → Nat → Option (Cached T.Leaf)
  | 0, l, _, myOffset => some ⟨myOffset, myOffset + T.size l, l⟩
  | h + 1, n, i, myOffset => Inner.bptreeAccess (bptreeAccess h) n i myOffset

/-- The accessor `BPlusTree<T>`. -/
structure Tree where
  height : Nat
  root : Node T.Leaf height
  /-- `m_size` -/
  size : Nat
  /-- The cached leaf; `none` while the bounds are `size_t(-1)`. -/
  cache : Option (Cached T.Leaf)

/-- `create()`: an empty leaf. -/
def Tree.create : Prog (Tree T) := do
  let l ← T.create
  pure ⟨0, l, 0, none⟩

/-- The new root before it has children. -/
def emptyRoot {C : Type} (compactForm : Bool) (elemsPerChild : Nat) : Prog (Inner C) :=
  if compactForm then Inner.create elemsPerChild else Inner.createGeneral

/-- The new root over a split root: compact when an append split a compact root. -/
def newRoot {C : Type} (compactForm : Bool) (root : C) (sp : Split C) : Prog (Inner C) := do
  let n ← emptyRoot compactForm sp.splitOffset
  let n ← n.addBpNodeRef root 0
  let n ← n.addBpNodeRef sp.sibling sp.splitOffset
  n.setTreeSize sp.splitSize

/-- The end of `BPlusTreeBase::bptree_insert`. -/
def replaceSplitRoot (n : Option Nat) (size : Nat) (cache : Option (Cached T.Leaf)) (h : Nat)
    (root : Node T.Leaf h) : Option (Split (Node T.Leaf h)) → Prog (Tree T)
  | none => pure ⟨h, root, size, cache⟩
  | some sp => do
    let root ← newRoot (n.isNone && isCompact T h root) root sp
    pure ⟨h + 1, root, size, cache⟩

/-- `BPlusTreeBase::bptree_insert`: an index at the end counts as `npos`. -/
def Tree.bptreeInsert (t : Tree T) (n : Option Nat) (func : InsertFunc T.Leaf) : Prog (Tree T) := do
  let n := if n = some (treeSize T t.height t.root) then none else n
  match t with
  | ⟨0, l, size, cache⟩ =>
    let (l, split, grown) ← leafInsert T maxSize func l n
    let cache := grown.bind (fun d => cache.map (fun c => { c with last := c.last + d }))
    replaceSplitRoot T n (size + func.count) cache 0 l split
  | ⟨h + 1, root, size, _⟩ =>
    let r ← BPlusTree.bptreeInsert T maxSize func (h + 1) root n 0
    replaceSplitRoot T n (size + func.count) r.cache (h + 1) r.node r.split

/-- `insert(n, value)`; `add(value)` is `insert(npos, value)`. -/
def Tree.insert (t : Tree T) (n : Option Nat) (value : V) : Prog (Tree T) :=
  Tree.bptreeInsert T maxSize t n (.call 1 (fun l ndx => T.insert l ndx value))

/-- One round of the loop of `BPlusTreeBase::bptree_erase`: a root with one child gives way to it.

`clear_first_bp_node_ref` writes to the root's block, which copies a read-only one; the block
destroyed afterwards is the one the root was in before that write, and holds what it held. -/
def dropRoot (h : Nat) (n : Inner (Node T.Leaf h)) : Prog Unit := do
  let r ← copyOnWrite n.ref
  if r = n.ref then
    freeAll (n.ref :: (n.form.blocks ++ n.children.tail.flatMap (nodeBlocks T h)))
  else freeAll (nodeBlocks T (h + 1) n)

/-- The loop of `BPlusTreeBase::bptree_erase`. -/
def collapse : (h : Nat) → Node T.Leaf h → Nat → Prog ((h : Nat) × Node T.Leaf h)
  | 0, l, _ => pure ⟨0, l⟩
  | h + 1, n, rootSize =>
    if rootSize = 1 then
      match n.children with
      | [] => failure
      | c :: _ => do
        dropRoot T h n
        collapse h c (nodeSize T h c)
    else pure ⟨h + 1, n⟩

def Tree.erase (t : Tree T) (i : Nat) : Prog (Tree T) :=
  match t with
  | ⟨0, l, size, cache⟩ => do
    let l ← T.erase l i
    pure ⟨0, l, size - 1, cache⟩
  | ⟨h + 1, root, size, _⟩ => do
    let r ← bptreeErase T maxSize (h + 1) root i 0
    let root ← collapse T (h + 1) r.node r.nodeSize
    pure ⟨root.1, root.2, size - 1, r.cache⟩

def Tree.set (t : Tree T) (i : Nat) (value : V) : Prog (Tree T) :=
  match t with
  | ⟨0, l, size, cache⟩ => do
    let l ← T.set l i value
    pure ⟨0, l, size, cache⟩
  | ⟨h + 1, root, size, _⟩ => do
    let (root, cache) ← bptreeUpdate T (fun l ndx => T.set l ndx value) (h + 1) root i 0
    pure ⟨h + 1, root, size, some cache⟩

def Tree.clear (t : Tree T) : Prog (Tree T) :=
  match t with
  | ⟨0, l, _, cache⟩ => do
    let l ← T.clear l
    pure ⟨0, l, 0, cache⟩
  | ⟨h + 1, root, _, _⟩ => do
    freeAll (nodeBlocks T (h + 1) root)
    Tree.create T

def Tree.getUncached (t : Tree T) (i : Nat) : Option V × Tree T :=
  match t with
  | ⟨0, l, _, _⟩ => (T.get l i, t)
  | ⟨h + 1, root, size, _⟩ =>
    match bptreeAccess T (h + 1) root i 0 with
    | some c => (T.get c.leaf (i - c.first), ⟨h + 1, root, size, some c⟩)
    | none => (none, t)

/-- `get(n)`: the cached leaf answers for the indices in its bounds. -/
def Tree.get (t : Tree T) (i : Nat) : Option V × Tree T :=
  match t.cache with
  | some c => if c.first ≤ i ∧ i < c.last then (T.get c.leaf (i - c.first), t) else t.getUncached T i
  | none => t.getUncached T i

end Levels

end Llbt.BPlusTree
