import Llbt.BPlusTree.Refine

/-!
# The shape of a tree, and what appending makes of it

The shape of a tree is what is left of it without the refs and without the representation of its leaves: the lists in
the leaves, and in each inner node the layout, the children and the tree size.  `growTree` appends elements in one step,
to the last leaf as long as it is not full, as a new leaf behind it otherwise.

* `grows_bptreeInsert` — an append at any node does to the shape what `grow` says;
* `adds_of_room`, `adds_of_full` — adding elements one by one gives the shape of one step;
* `shape_eq_of_compact` — the shape of a tree in compact form is determined by its list.
-/

set_option autoImplicit false

namespace Llbt.BPlusTree

open Ownership Segments

/-- An inner node without its refs. -/
structure Level (C : Type) where
  layout : Layout
  children : List C
  treeSize : Nat

/-- A node without the refs and the representation of the leaves. -/
def Shape (V : Type) : Nat → Type
  | 0 => List V
  | h + 1 => Level (Shape V h)

def Shape.inner {V : Type} {h : Nat} (n : Level (Shape V h)) : Shape V (h + 1) := n

def Split.map {C D : Type} (f : C → D) (sp : Split C) : Split D := ⟨f sp.sibling, sp.splitOffset, sp.splitSize⟩

/-- `count` more elements for what an append has left. -/
def fillGrown {C : Type} (count : Nat) (fill : C → C) : C × Option (Split C) → C × Option (Split C)
  | (c, none) => (fill c, none)
  | (c, some sp) => (c, some ⟨fill sp.sibling, sp.splitOffset, sp.splitSize + count⟩)

theorem fillGrown_none {C : Type} (count : Nat) (fill : C → C) (c : C) :
    fillGrown count fill (c, none) = (fill c, none) := rfl

theorem fillGrown_some {C : Type} (count : Nat) (fill : C → C) (c : C) (sp : Split C) :
    fillGrown count fill (c, some sp) =
    (c, some ⟨fill sp.sibling, sp.splitOffset, sp.splitSize + count⟩) := rfl

namespace Level

variable {C : Type}

/-- `count` elements are appended to the last child. -/
def grow (maxSize count : Nat) (growChild : C → C × Option (Split C)) (n : Level C) :
    Level C × Option (Split (Level C)) :=
  match n.children.getLast? with
  | none => (n, none)
  | some c =>
    let offset := n.layout.childOffset (n.children.length - 1)
    let kept := n.children.dropLast ++ [(growChild c).1]
    match (growChild c).2 with
    | none => (⟨n.layout, kept, n.treeSize + count⟩, none)
    | some sp =>
      if n.children.length < maxSize then
        (⟨n.layout.map (· ++ [offset + sp.splitOffset]), kept ++ [sp.sibling], n.treeSize + count⟩, none)
      else
        (⟨n.layout, kept, offset + sp.splitOffset⟩,
          some ⟨⟨n.layout.map (fun _ => []), [sp.sibling], sp.splitSize - sp.splitOffset⟩,
            offset + sp.splitOffset, offset + sp.splitSize⟩)

/-- The same where the last leaf has room for all of them. -/
def fill (count : Nat) (fillChild : C → C) (n : Level C) : Level C :=
  match n.children.getLast? with
  | none => n
  | some c => ⟨n.layout, n.children.dropLast ++ [fillChild c], n.treeSize + count⟩

variable {maxSize count : Nat} {growChild : C → C × Option (Split C)} {lay : Layout} {pre : List C} {c : C} {sz : Nat}

theorem grow_kept (h : (growChild c).2 = none) : grow maxSize count growChild ⟨lay, pre ++ [c], sz⟩ =
    (⟨lay, pre ++ [(growChild c).1], sz + count⟩, none) := by
  simp [grow, h]

theorem grow_split {sp : Split C} (h : (growChild c).2 = some sp) : grow maxSize count growChild ⟨lay, pre ++ [c], sz⟩ =
    if pre.length + 1 < maxSize then
      (⟨lay.map (· ++ [lay.childOffset pre.length + sp.splitOffset]), pre ++ [(growChild c).1, sp.sibling], sz + count⟩,
        none)
    else
      (⟨lay, pre ++ [(growChild c).1], lay.childOffset pre.length + sp.splitOffset⟩,
        some ⟨⟨lay.map (fun _ => []), [sp.sibling], sp.splitSize - sp.splitOffset⟩,
          lay.childOffset pre.length + sp.splitOffset, lay.childOffset pre.length + sp.splitSize⟩) := by
  simp [grow, h]

theorem fill_concat (pre : List C) (fillChild : C → C) :
    fill count fillChild ⟨lay, pre ++ [c], sz⟩ = ⟨lay, pre ++ [fillChild c], sz + count⟩ := by
  simp [fill]

theorem grow_append {growChild' : C → C × Option (Split C)} {fillChild : C → C} {more : Nat}
    (h : growChild' c = fillGrown more fillChild (growChild c))
    (hle : ∀ sp, (growChild c).2 = some sp → sp.splitOffset ≤ sp.splitSize) :
    grow maxSize (count + more) growChild' ⟨lay, pre ++ [c], sz⟩ =
      fillGrown more (fill more fillChild) (grow maxSize count growChild ⟨lay, pre ++ [c], sz⟩) := by
  rcases hc : growChild c with ⟨c', _ | sp⟩
  · rw [hc] at h
    rw [grow_kept (by rw [h]; rfl), grow_kept (by rw [hc]), h, hc, fillGrown_none, fillGrown_none, fill_concat,
      Nat.add_assoc]
  · have hsize : sp.splitSize + more - sp.splitOffset = sp.splitSize - sp.splitOffset + more := by
      have hle' := hle sp (by rw [hc])
      omega
    rw [hc, fillGrown_some] at h
    have hmore : (growChild' c).2 = some ⟨fillChild sp.sibling, sp.splitOffset, sp.splitSize + more⟩ := by rw [h]
    rw [grow_split hmore, grow_split (by rw [hc]), h, hc]
    split
    · rw [fillGrown_none, List.append_cons pre c' [sp.sibling], fill_concat, List.append_cons pre, Nat.add_assoc]
    · have hone : fill more fillChild ⟨lay.map (fun _ => []), [sp.sibling], sp.splitSize - sp.splitOffset⟩ =
          ⟨lay.map (fun _ => []), [fillChild sp.sibling], sp.splitSize - sp.splitOffset + more⟩ :=
            fill_concat [] fillChild
      rw [fillGrown_some, hone, hsize, Nat.add_assoc]

end Level

/-! ## Appending to shapes -/

section Shapes

variable {V : Type} (maxSize : Nat)

def tail : (h : Nat) → Shape V h → Option (List V)
  | 0, xs => some xs
  | h + 1, n => n.children.getLast?.bind (tail h)

/-- At a leaf: a full one gets the elements as a right neighbour. -/
def growLeaf (vs xs : List V) : List V × Option (Split (List V)) :=
  if xs.length < maxSize then (xs ++ vs, none) else (xs, some ⟨vs, xs.length, xs.length + vs.length⟩)

/-- The elements `vs` are appended in one step. -/
def grow (vs : List V) : (h : Nat) → Shape V h → Shape V h × Option (Split (Shape V h))
  | 0, xs => growLeaf maxSize vs xs
  | h + 1, n => Level.grow maxSize vs.length (grow vs h) n

def fillLeaf (vs xs : List V) : List V := xs ++ vs

def fill (vs : List V) : (h : Nat) → Shape V h → Shape V h
  | 0, xs => fillLeaf vs xs
  | h + 1, n => Level.fill vs.length (fill vs h) n

def compactShape : (h : Nat) → Shape V h → Bool
  | 0, _ => true
  | _ + 1, n => n.layout.isCompact

variable {maxSize} {vs ws xs : List V}

theorem exists_last {h : Nat} {n : Shape V (h + 1)} (htail : tail (h + 1) n = some xs) :
    ∃ (lay : Layout) (pre : List (Shape V h)) (c : Shape V h) (sz : Nat),
      n = .inner ⟨lay, pre ++ [c], sz⟩ ∧ tail h c = some xs := by
  obtain ⟨lay, cs, sz⟩ := n
  obtain ⟨c, hc, hxs⟩ := Option.bind_eq_some_iff.mp htail
  obtain ⟨pre, rfl⟩ := List.getLast?_eq_some_iff.mp hc
  exact ⟨lay, pre, c, sz, rfl, hxs⟩

theorem tail_concat {h : Nat} (lay : Layout) (pre : List (Shape V h)) (c : Shape V h) (sz : Nat) :
    tail (h + 1) (.inner ⟨lay, pre ++ [c], sz⟩) = tail h c := by
  simp [tail, Shape.inner]

theorem grow_inner {h : Nat} (n : Level (Shape V h)) :
    grow maxSize vs (h + 1) (.inner n) = Level.grow maxSize vs.length (grow maxSize vs h) n := rfl

theorem fill_inner {h : Nat} (n : Level (Shape V h)) :
    fill vs (h + 1) (.inner n) = .inner (Level.fill vs.length (fill vs h) n) := rfl

theorem grow_of_room : ∀ (h : Nat) (s : Shape V h), tail h s = some xs → xs.length < maxSize →
    grow maxSize vs h s = (fill vs h s, none)
  | 0, s, htail, hroom => by
    obtain rfl := Option.some.inj htail
    exact if_pos hroom
  | h + 1, s, htail, hroom => by
    obtain ⟨lay, pre, c, sz, rfl, hc⟩ := exists_last htail
    have ih := grow_of_room h c hc hroom
    have hnone : (grow maxSize vs h c).2 = none := by rw [ih]
    rw [grow_inner, fill_inner, Level.grow_kept hnone, Level.fill_concat, ih]
    rfl

theorem tail_fill : ∀ (h : Nat) (s : Shape V h), tail h s = some xs → tail h (fill vs h s) = some (xs ++ vs)
  | 0, s, htail => by
    obtain rfl := Option.some.inj htail
    rfl
  | h + 1, s, htail => by
    obtain ⟨lay, pre, c, sz, rfl, hc⟩ := exists_last htail
    rw [fill_inner, Level.fill_concat, tail_concat, tail_fill h c hc]

theorem fill_fill : ∀ (h : Nat) (s : Shape V h), tail h s = some xs →
    fill ws h (fill vs h s) = fill (vs ++ ws) h s
  | 0, s, _ => List.append_assoc s vs ws
  | h + 1, s, htail => by
    obtain ⟨lay, pre, c, sz, rfl, hc⟩ := exists_last htail
    rw [fill_inner, fill_inner, fill_inner, Level.fill_concat, Level.fill_concat, Level.fill_concat, fill_fill h c hc,
      List.length_append, Nat.add_assoc]

theorem fill_nil : ∀ (h : Nat) (s : Shape V h), tail h s = some xs → fill [] h s = s
  | 0, s, _ => List.append_nil s
  | h + 1, s, htail => by
    obtain ⟨lay, pre, c, sz, rfl, hc⟩ := exists_last htail
    rw [fill_inner, Level.fill_concat, fill_nil h c hc]
    rfl

theorem splitOffset_le : ∀ (h : Nat) (s : Shape V h) {sp : Split (Shape V h)}, (grow maxSize vs h s).2 = some sp →
    sp.splitOffset ≤ sp.splitSize
  | 0, s, sp, hsp => by
    change (growLeaf maxSize vs s).2 = some sp at hsp
    unfold growLeaf at hsp
    split at hsp
    · cases hsp
    · cases hsp
      exact Nat.le_add_right _ _
  | h + 1, ⟨lay, cs, sz⟩, sp, hsp => by
    rcases List.eq_nil_or_concat' cs with rfl | ⟨pre, c, rfl⟩
    · cases hsp
    have hgrow : grow maxSize vs (h + 1) (⟨lay, pre ++ [c], sz⟩ : Level (Shape V h)) =
        Level.grow maxSize vs.length (grow maxSize vs h) ⟨lay, pre ++ [c], sz⟩ := rfl
    rw [hgrow] at hsp
    cases hc : (grow maxSize vs h c).2 with
    | none =>
      rw [Level.grow_kept hc] at hsp
      cases hsp
    | some sp' =>
      have ih := splitOffset_le h c hc
      rw [Level.grow_split hc] at hsp
      split at hsp
      · cases hsp
      · cases hsp
        exact Nat.add_le_add_left ih _

/-- **Behind a full last leaf** more elements go where the first ones went. -/
theorem grow_append (vs ws : List V) : ∀ (h : Nat) (s : Shape V h), tail h s = some xs → ¬ xs.length < maxSize →
    grow maxSize (vs ++ ws) h s = fillGrown ws.length (fill ws h) (grow maxSize vs h s)
  | 0, s, htail, hfull => by
    obtain rfl := Option.some.inj htail
    have hleaf : ∀ us : List V, grow maxSize us 0 s = (s, some ⟨us, List.length s, List.length s + us.length⟩) :=
      fun _ => if_neg hfull
    rw [hleaf, hleaf, List.length_append, ← Nat.add_assoc]
    rfl
  | h + 1, s, htail, hfull => by
    obtain ⟨lay, pre, c, sz, rfl, hc⟩ := exists_last htail
    have ih := grow_append vs ws h c hc hfull
    rw [grow_inner, grow_inner, List.length_append]
    exact Level.grow_append ih fun sp hsp => splitOffset_le h c hsp

theorem tail_grow_full (vs : List V) : ∀ (h : Nat) (s : Shape V h), tail h s = some xs → ¬ xs.length < maxSize →
    ((grow maxSize vs h s).2 = none → tail h (grow maxSize vs h s).1 = some vs) ∧
      ∀ sp, (grow maxSize vs h s).2 = some sp → tail h sp.sibling = some vs
  | 0, s, htail, hfull => by
    obtain rfl := Option.some.inj htail
    have hgrow : grow maxSize vs 0 s = (s, some ⟨vs, List.length s, List.length s + vs.length⟩) := if_neg hfull
    rw [hgrow]
    refine ⟨fun hnone => ?_, fun sp hsp => ?_⟩
    · cases hnone
    · cases hsp
      rfl
  | h + 1, s, htail, hfull => by
    obtain ⟨lay, pre, c, sz, rfl, hc⟩ := exists_last htail
    obtain ⟨hkept, hsplit⟩ := tail_grow_full vs h c hc hfull
    rw [grow_inner]
    cases hsp : (grow maxSize vs h c).2 with
    | none =>
      rw [Level.grow_kept hsp]
      refine ⟨fun _ => ?_, fun sp hnone => by cases hnone⟩
      exact (tail_concat _ _ _ _).trans (hkept hsp)
    | some sp =>
      rw [Level.grow_split hsp]
      split
      · refine ⟨fun _ => ?_, fun sp hnone => by cases hnone⟩
        rw [List.append_cons pre]
        exact (tail_concat _ _ _ _).trans (hsplit sp hsp)
      · refine ⟨fun hnone => ?_, fun sp' hsp' => ?_⟩
        · cases hnone
        · cases hsp'
          exact hsplit sp hsp

/-! ## Whole trees -/

abbrev TreeShape (V : Type) := (h : Nat) × Shape V h

/-- A root that is split gets a new root above it. -/
def plant {h : Nat} : Shape V h × Option (Split (Shape V h)) → TreeShape V
  | (s, none) => ⟨h, s⟩
  | (s, some sp) =>
    ⟨h + 1, .inner ⟨if compactShape h s then .compact sp.splitOffset else .general (Inner.withOffset sp.splitOffset []),
      [s, sp.sibling], sp.splitSize⟩⟩

variable (maxSize) in
/-- An append to a tree. -/
def growTree (vs : List V) (t : TreeShape V) : TreeShape V := plant (grow maxSize vs t.1 t.2)

def fillTree (vs : List V) (t : TreeShape V) : TreeShape V := ⟨t.1, fill vs t.1 t.2⟩

variable (maxSize) in
def addAll (t : TreeShape V) (vs : List V) : TreeShape V := vs.foldl (fun t v => growTree maxSize [v] t) t

theorem growTree_of_room {t : TreeShape V} (htail : tail t.1 t.2 = some xs) (hroom : xs.length < maxSize) :
    growTree maxSize vs t = fillTree vs t := by
  unfold growTree
  rw [grow_of_room t.1 t.2 htail hroom]
  rfl

theorem growTree_append (vs ws : List V) {t : TreeShape V} (htail : tail t.1 t.2 = some xs)
    (hfull : ¬ xs.length < maxSize) :
    growTree maxSize (vs ++ ws) t = fillTree ws (growTree maxSize vs t) := by
  unfold growTree
  rw [grow_append vs ws t.1 t.2 htail hfull]
  rcases hg : grow maxSize vs t.1 t.2 with ⟨s, _ | sp⟩
  · rfl
  · simp only [fillGrown, fillTree, plant]
    congr 1

theorem tail_growTree_full (vs : List V) {t : TreeShape V} (htail : tail t.1 t.2 = some xs)
    (hfull : ¬ xs.length < maxSize) :
    tail (growTree maxSize vs t).1 (growTree maxSize vs t).2 = some vs := by
  obtain ⟨hkept, hsplit⟩ := tail_grow_full vs t.1 t.2 htail hfull
  unfold growTree
  rcases hg : grow maxSize vs t.1 t.2 with ⟨s, _ | sp⟩
  · rw [hg] at hkept
    exact hkept rfl
  · rw [hg] at hsplit
    exact hsplit sp rfl

/-- **Elements that fit into the last leaf** may be added one by one or at once. -/
theorem adds_of_room (vs : List V) : ∀ {t : TreeShape V} {xs : List V}, tail t.1 t.2 = some xs →
    xs.length + vs.length ≤ maxSize → addAll maxSize t vs = fillTree vs t := by
  induction vs with
  | nil =>
    intro t xs htail _
    exact (congrArg (Sigma.mk t.1) (fill_nil t.1 t.2 htail)).symm
  | cons v vs ih =>
    intro t xs htail hle
    rw [List.length_cons] at hle
    have hfirst : growTree maxSize [v] t = fillTree [v] t := growTree_of_room htail (by omega)
    have hnext : tail (fillTree [v] t).1 (fillTree [v] t).2 = some (xs ++ [v]) := tail_fill t.1 t.2 htail
    have hrest := ih hnext (by simp; omega)
    change addAll maxSize (growTree maxSize [v] t) vs = _
    rw [hfirst, hrest]
    exact congrArg (Sigma.mk t.1) (fill_fill t.1 t.2 htail)

/-- **Elements that make up a new leaf** behind a full one, likewise. -/
theorem adds_of_full {v : V} {vs : List V} {t : TreeShape V} (htail : tail t.1 t.2 = some xs)
    (hfull : ¬ xs.length < maxSize) (hle : (v :: vs).length ≤ maxSize) :
    addAll maxSize t (v :: vs) = growTree maxSize (v :: vs) t := by
  have hnext := tail_growTree_full [v] htail hfull
  rw [List.length_cons] at hle
  have hrest : addAll maxSize (growTree maxSize [v] t) vs = fillTree vs (growTree maxSize [v] t) :=
    adds_of_room vs hnext (by rw [List.length_singleton]; omega)
  rw [← List.singleton_append, growTree_append [v] vs htail hfull]
  exact hrest

theorem compactShape_grow (maxSize : Nat) (vs : List V) :
    ∀ (h : Nat) (s : Shape V h), compactShape h (grow maxSize vs h s).1 = compactShape h s
  | 0, _ => rfl
  | h + 1, ⟨lay, cs, sz⟩ => by
    rcases List.eq_nil_or_concat' cs with rfl | ⟨pre, c, rfl⟩
    · rfl
    change (Level.grow _ _ _ _).1.layout.isCompact = lay.isCompact
    cases hc : (grow maxSize vs h c).2 with
    | none => rw [Level.grow_kept hc]
    | some sp =>
      rw [Level.grow_split hc]
      split
      · exact Inner.Layout.map_isCompact lay _
      · rfl

theorem compactShape_growTree {t : TreeShape V} (h : compactShape t.1 t.2 = true) :
    compactShape (growTree maxSize vs t).1 (growTree maxSize vs t).2 = true := by
  have hgrow := compactShape_grow maxSize vs t.1 t.2
  unfold growTree
  rcases hg : grow maxSize vs t.1 t.2 with ⟨s, _ | sp⟩
  · rw [hg] at hgrow
    exact hgrow.trans h
  · rw [hg] at hgrow
    change (if compactShape t.1 s = true then Layout.compact _ else _).isCompact = true
    rw [if_pos (hgrow.trans h)]
    rfl

theorem compactShape_addAll (vs : List V) : ∀ {t : TreeShape V}, compactShape t.1 t.2 = true →
    compactShape (addAll maxSize t vs).1 (addAll maxSize t vs).2 = true := by
  induction vs with
  | nil => exact id
  | cons v vs ih => exact fun h => ih (compactShape_growTree h)

end Shapes

/-! ## The shape of a node -/

/-- An inner node without its refs, with the children as `shape` sees them. -/
def Inner.level {C D : Type} (shape : C → D) (n : Inner C) : Level D :=
  ⟨n.form.layout, n.children.map shape, n.treeSize⟩

namespace Inner

variable {C D V L : Type} {maxSize full : Nat} {ok : C → Prop} {compact : C → Bool} {vals : C → List V}

theorem Holds.level_eq {n : Inner C} {lay : Layout} {cs : List C} {sz : Nat} (h : n.Holds lay cs sz) (shape : C → D) :
    n.level shape = ⟨lay, cs.map shape, sz⟩ := by
  rw [level, h.layout, h.children, h.treeSize]

theorem map_adjustFrom_last {size : C → Nat} {lay : Layout} {pre : List C} {c : C} (h : Located size lay (pre ++ [c]))
    (f : Nat → Nat) {k : Nat} (hk : pre.length ≤ k) : lay.map (adjustFrom f k) = lay := by
  cases lay with
  | compact e => rfl
  | general offsets =>
    have hlen : offsets.length = pre.length + 0 := length_of_located h
    rw [Layout.map, adjustFrom_of_le f (by omega)]

theorem map_insertIdx_last {size : C → Nat} {lay : Layout} {pre : List C} {c : C} (h : Located size lay (pre ++ [c]))
    (x k : Nat) (f : Nat → Nat) (hk : pre.length < k) :
    (lay.map (·.insertIdx pre.length x)).map (adjustFrom f k) = lay.map (· ++ [x]) := by
  cases lay with
  | compact e => rfl
  | general offsets =>
    have hlen : offsets.length = pre.length + 0 := length_of_located h
    have hinsert : offsets.insertIdx pre.length x = offsets ++ [x] := by
      have hmid := insertIdx_mid offsets x []
      rw [List.append_nil, hlen] at hmid
      exact hmid
    simp only [Layout.map, hinsert]
    rw [adjustFrom_of_le f (by simp; omega)]

section Last

variable {n : Inner C} {lay : Layout} {pre : List C} {c c' : C} {sp : Split C} {sz count : Nat}
  (hloc : Located (len vals) lay (pre ++ [c])) (hn : n.Holds lay (pre ++ [c']) sz)

include hloc hn

theorem holds_insertWithRoom_last : Yields (n.insertWithRoom pre.length sp count)
    (·.Holds (lay.map (· ++ [lay.childOffset pre.length + sp.splitOffset])) (pre ++ [c', sp.sibling])
      (sz + count)) := by
  dsimp only [insertWithRoom]
  rw [hn.childOffset_eq]
  refine (holds_setTreeSize hn _).bind fun n₁ h₁ => (holds_setOffsets h₁ _).bind fun n₂ h₂ =>
    (holds_adjustOffsets h₂ _ _).bind fun n₃ h₃ => (holds_touch h₃).bind fun n₄ h₄ => Yields.pure ?_
  rw [map_insertIdx_last hloc _ _ _ (Nat.lt_succ_self _)] at h₄
  refine ⟨h₄.layout, ?_, by rw [← hn.treeSize]; exact h₄.treeSize⟩
  have hcut := insertIdx_mid (pre ++ [c']) sp.sibling []
  rw [List.length_append, List.length_singleton, List.append_nil] at hcut
  change n₄.children.insertIdx (pre.length + 1) sp.sibling = _
  rw [h₄.children, hcut]
  simp

omit hloc in
theorem holds_splitBehindLast {sib : Inner C} (hsib : sib.Holds (lay.map (fun _ => [])) [] 0) :
    Yields (n.splitBehindLast sib pre.length sp) (fun p =>
      p.1.Holds lay (pre ++ [c']) (lay.childOffset pre.length + sp.splitOffset) ∧
      p.2.sibling.Holds (lay.map (fun _ => [])) [sp.sibling] (sp.splitSize - sp.splitOffset) ∧
      p.2.splitOffset = lay.childOffset pre.length + sp.splitOffset ∧
      p.2.splitSize = lay.childOffset pre.length + sp.splitSize) := by
  dsimp only [splitBehindLast]
  rw [hn.childOffset_eq]
  refine (holds_addBpNodeRef hsib sp.sibling 0).bind fun sib₁ hsib₁ => (holds_setTreeSize hn _).bind fun n₁ h₁ =>
    (holds_setTreeSize hsib₁ _).bind fun sib₂ hsib₂ => Yields.pure ⟨h₁, ?_, rfl, rfl⟩
  have hempty : (lay.map (fun _ => [])).map (withOffset 0) = lay.map (fun _ => []) := by
    cases lay <;> rfl
  rw [hempty] at hsib₂
  exact hsib₂

theorem grows_insertBpNode (shape : C → D) {growChild : D → D × Option (Split D)}
    (hchild : (shape c', some (sp.map shape)) = growChild (shape c)) :
    Yields (n.insertBpNode maxSize pre.length sp count) (fun p =>
      (p.1.level shape, p.2.map (Split.map (·.level shape))) =
        Level.grow maxSize count growChild ⟨lay, (pre ++ [c]).map shape, sz⟩) := by
  have hsnd : (growChild (shape c)).2 = some (sp.map shape) := by rw [← hchild]
  have hlen : n.children.length = pre.length + 1 := by simp [hn.children]
  rw [List.map_append, List.map_singleton, Level.grow_split hsnd, ← hchild, List.length_map]
  unfold insertBpNode
  rw [hlen]
  split
  · refine (holds_insertWithRoom_last hloc hn).bind fun n₁ h₁ => Yields.pure ?_
    rw [h₁.level_eq]
    simp [Split.map]
  · refine (holds_newSibling hn).bind fun sib hsib => ?_
    rw [if_pos rfl]
    refine (holds_splitBehindLast hn hsib).bind fun p hp => Yields.pure ?_
    obtain ⟨h₁, hsib₁, hoff, hsize⟩ := hp
    simp only [Option.map_some, Split.map, h₁.level_eq, hsib₁.level_eq, hoff, hsize, List.map_append,
      List.map_singleton]

end Last

/-- **An append at an inner node** does to its shape what `Level.grow` says, if it does so at the last child. -/
theorem grows_bptreeInsert {n : Inner C} (hn : n.Laid maxSize full ok compact vals) (ref : C → Ref) (shape : C → D)
    {growChild : D → D × Option (Split D)} {insertChild : C → Option Nat → Nat → Prog (Inserted L C)} (count off : Nat)
    (hinsert : ∀ c off, n.children.getLast? = some c → Yields (insertChild c none off)
      (fun r => (shape r.node, r.split.map (Split.map shape)) = growChild (shape c))) :
    Yields (n.bptreeInsert maxSize ref count insertChild none off) (fun r =>
      (r.node.level shape, r.split.map (Split.map (·.level shape))) =
        Level.grow maxSize count growChild (n.level shape)) := by
  obtain ⟨pre, c, hcs⟩ := (List.eq_nil_or_concat' n.children).resolve_left hn.nonempty
  have hloc : Located (len vals) n.form.layout (pre ++ [c]) := hcs ▸ hn.located
  have hself := n.holds_self
  rw [hcs] at hself
  have hindex : n.insertIndex none = pre.length := by simp [insertIndex, hcs]
  have hchild : n.children[pre.length]? = some c := by rw [hcs, getElem?_mid]
  have hlast : n.children.getLast? = some c := by simp [hcs]
  refine (Yields.pure rfl : Yields (n.prepareInsert none) (fun n' => n' = n)).bind fun n₀ h₀ => ?_
  rw [h₀, hindex, hself.level_eq]
  refine (yields_child hchild).bind fun c₀ hc₀ => ?_
  rw [← hc₀]
  refine (hinsert _ _ hlast).bind fun r hr => ?_
  refine (holds_setChild ref hself (by simp) r.node).bind fun n₁ h₁ => ?_
  rw [set_mid] at h₁
  cases hsplit : r.split with
  | none =>
    rw [hsplit] at hr
    have hsnd : (growChild (shape c)).2 = none := by rw [← hr]; rfl
    refine (holds_setTreeSize h₁ _).bind fun n₂ h₂ => (holds_adjustOffsets h₂ _ _).bind fun n₃ h₃ => Yields.pure ?_
    rw [map_adjustFrom_last hloc _ le_rfl] at h₃
    rw [List.map_append, List.map_singleton, Level.grow_kept hsnd, ← hr, h₃.level_eq, List.map_append,
      List.map_singleton, h₁.treeSize]
    rfl
  | some sp =>
    rw [hsplit] at hr
    exact (grows_insertBpNode hloc h₁ shape hr).bind fun p hp => Yields.pure hp

end Inner

section Nodes

variable {V : Type} {T : LeafClass V} (L : ListLike T) {maxSize : Nat}

def nodeShape : (h : Nat) → Node T.Leaf h → Shape V h
  | 0, l => L.values l
  | h + 1, n => Inner.level (nodeShape h) n

def tailLeaf (T : LeafClass V) : (h : Nat) → Node T.Leaf h → Option T.Leaf
  | 0, l => some l
  | h + 1, n => n.children.getLast?.bind (tailLeaf T h)

def Tree.shape (t : Tree T) : TreeShape V := ⟨t.height, nodeShape L t.height t.root⟩

theorem tail_nodeShape : ∀ (h : Nat) (n : Node T.Leaf h), tail h (nodeShape L h n) = (tailLeaf T h n).map L.values
  | 0, _ => rfl
  | h + 1, n => by
    change (n.children.map (nodeShape L h)).getLast?.bind (tail h) =
      (n.children.getLast?.bind (tailLeaf T h)).map L.values
    rw [List.getLast?_map]
    cases n.children.getLast? with
    | none => rfl
    | some c => exact tail_nodeShape h c

theorem compactShape_nodeShape : ∀ (h : Nat) (n : Node T.Leaf h), compactShape h (nodeShape L h n) = isCompact T h n
  | 0, _ => rfl
  | _ + 1, n => n.holds_self.isCompact_eq.symm

theorem exists_tailLeaf : ∀ (h : Nat) (n : Node T.Leaf h), WellFormed L maxSize h n →
    ∃ l, tailLeaf T h n = some l ∧ WellFormed L maxSize 0 l
  | 0, l, hl => ⟨l, rfl, hl⟩
  | h + 1, n, hn => by
    obtain ⟨pre, c, hcs⟩ := (List.eq_nil_or_concat' n.children).resolve_left hn.nonempty
    obtain ⟨l, hl, hwf⟩ := exists_tailLeaf h c (hn.child_ok c (by simp [hcs]))
    refine ⟨l, ?_, hwf⟩
    change n.children.getLast?.bind (tailLeaf T h) = some l
    rw [hcs, List.getLast?_concat]
    exact hl

/-- What an append does at the last leaf. -/
def Grows (maxSize : Nat) (func : InsertFunc T.Leaf) (vs : List V) (l : T.Leaf) : Prop :=
  Yields (leafInsert T maxSize func l none)
    (fun r => (L.values r.1, r.2.1.map (Split.map L.values)) = grow maxSize vs 0 (L.values l))

theorem grows_bptreeInsert {func : InsertFunc T.Leaf} {vs : List V} (hcount : func.count = vs.length) :
    ∀ (h : Nat) (n : Node T.Leaf h) (off : Nat), WellFormed L maxSize h n →
      (∀ l, tailLeaf T h n = some l → Grows L maxSize func vs l) →
      Yields (bptreeInsert T maxSize func h n none off) (fun r =>
        (nodeShape L h r.node, r.split.map (Split.map (nodeShape L h))) = grow maxSize vs h (nodeShape L h n))
  | 0, l, off, _, hgrows => (hgrows l rfl).bind fun _ hr => Yields.pure hr
  | h + 1, n, off, hn, hgrows => by
    have hlast : ∀ c, n.children.getLast? = some c → ∀ l, tailLeaf T h c = some l → Grows L maxSize func vs l := by
      intro c hc l hl
      refine hgrows l ?_
      change n.children.getLast?.bind (tailLeaf T h) = some l
      rw [hc]
      exact hl
    have hstep := Inner.grows_bptreeInsert hn (nodeRef T h) (nodeShape L h) func.count off fun c off' hc =>
      grows_bptreeInsert hcount h c off' (hn.child_ok c (List.mem_of_getLast? hc)) (hlast c hc)
    have hgrow : grow maxSize vs (h + 1) (nodeShape L (h + 1) n) =
        Level.grow maxSize func.count (grow maxSize vs h) (n.level (nodeShape L h)) := by
      rw [hcount]
      rfl
    rw [hgrow]
    exact hstep

theorem shape_replaceSplitRoot (size : Nat) (cache : Option (Cached T.Leaf)) (h : Nat) (n : Node T.Leaf h)
    (split : Option (Split (Node T.Leaf h))) : Yields (replaceSplitRoot T none size cache h n split)
      (fun t => t.shape L = plant (nodeShape L h n, split.map (Split.map (nodeShape L h)))) := by
  cases split with
  | none => exact Yields.pure rfl
  | some sp =>
    refine (holds_newRoot _ n sp).bind fun root hroot => Yields.pure ?_
    have hlevel := hroot.level_eq (nodeShape L h)
    rw [Option.isNone_none, Bool.true_and, ← compactShape_nodeShape L h n] at hlevel
    exact congrArg (Sigma.mk (h + 1)) hlevel

/-- **An append to a tree** does to its shape what `growTree` says. -/
theorem shape_bptreeInsert {func : InsertFunc T.Leaf} {vs : List V} (hcount : func.count = vs.length) {t : Tree T}
    (ht : WellFormed L maxSize t.height t.root)
    (hgrows : ∀ l, tailLeaf T t.height t.root = some l → Grows L maxSize func vs l) :
    Yields (Tree.bptreeInsert T maxSize t none func) (fun t' => t'.shape L = growTree maxSize vs (t.shape L)) := by
  obtain ⟨h, root, size, cache⟩ := t
  unfold Tree.bptreeInsert
  rw [if_neg (Option.some_ne_none _).symm]
  cases h with
  | zero =>
    refine (hgrows root rfl).bind fun r hr => (shape_replaceSplitRoot L _ _ 0 r.1 r.2.1).mono fun t' ht' => ?_
    exact ht'.trans (congrArg plant hr)
  | succ h =>
    refine (grows_bptreeInsert L hcount (h + 1) root 0 ht hgrows).bind fun r hr =>
      (shape_replaceSplitRoot L _ _ (h + 1) r.node r.split).mono fun t' ht' => ?_
    exact ht'.trans (congrArg plant hr)

end Nodes

/-! ## Trees in compact form -/

theorem Located.tailCompact {C : Type} {size : C → Nat} {e : Nat} {c c' : C} {cs : List C}
    (h : Located size (.compact e) (c :: c' :: cs)) : Located size (.compact e) (c' :: cs) := by
  obtain ⟨hpos, hequal, hbound⟩ := h
  refine ⟨hpos, fun x hx => hequal x ?_, fun x hx => hbound x (List.mem_cons_of_mem c hx)⟩
  rw [List.dropLast_cons_cons]
  exact List.mem_cons_of_mem c hx

theorem map_eq_of_flatMap_eq {C D V : Type} {ok : C → Prop} {vals : C → List V} {shape : C → D} {full : Nat}
    (hshape : ∀ a b, ok a → ok b → vals a = vals b → shape a = shape b) : ∀ {cs ds : List C},
    (∀ c ∈ cs, ok c ∧ vals c ≠ []) → (∀ d ∈ ds, ok d ∧ vals d ≠ []) → Located (len vals) (.compact full) cs →
    Located (len vals) (.compact full) ds → cs.flatMap vals = ds.flatMap vals → cs.map shape = ds.map shape
  | [], [], _, _, _, _, _ => rfl
  | [], d :: ds, _, hd, _, _, heq => by
    rw [List.flatMap_nil, List.flatMap_cons, eq_comm, List.append_eq_nil_iff] at heq
    exact absurd heq.1 (hd d List.mem_cons_self).2
  | c :: cs, [], hc, _, _, _, heq => by
    rw [List.flatMap_nil, List.flatMap_cons, List.append_eq_nil_iff] at heq
    exact absurd heq.1 (hc c List.mem_cons_self).2
  | [c], [d], hc, hd, _, _, heq => by
    have hvals : vals c = vals d := by simpa using heq
    rw [List.map_singleton, List.map_singleton, hshape c d (hc c (by simp)).1 (hd d (by simp)).1 hvals]
  | [c], d :: d' :: ds, _, hd, hloc, hloc', heq => by
    have hle : len vals c ≤ full := hloc.2.2 c (by simp)
    have hfull : len vals d = full := hloc'.2.1 d (by simp)
    have hpos := List.length_pos_iff.mpr (hd d' (by simp)).2
    have hlen := congrArg List.length heq
    simp only [len, List.flatMap_cons, List.flatMap_nil, List.length_append, List.length_nil] at hle hfull hlen
    omega
  | c :: c' :: cs, [d], hc, _, hloc, hloc', heq => by
    have hle : len vals d ≤ full := hloc'.2.2 d (by simp)
    have hfull : len vals c = full := hloc.2.1 c (by simp)
    have hpos := List.length_pos_iff.mpr (hc c' (by simp)).2
    have hlen := congrArg List.length heq
    simp only [len, List.flatMap_cons, List.flatMap_nil, List.length_append, List.length_nil] at hle hfull hlen
    omega
  | c :: c' :: cs, d :: d' :: ds, hc, hd, hloc, hloc', heq => by
    have hfull : len vals c = full := hloc.2.1 c (by simp)
    have hfull' : len vals d = full := hloc'.2.1 d (by simp)
    change vals c ++ (c' :: cs).flatMap vals = vals d ++ (d' :: ds).flatMap vals at heq
    obtain ⟨hvals, hrest⟩ := List.append_inj heq (hfull.trans hfull'.symm)
    have ih := map_eq_of_flatMap_eq hshape (fun x hx => hc x (List.mem_cons_of_mem _ hx))
      (fun x hx => hd x (List.mem_cons_of_mem _ hx)) hloc.tailCompact hloc'.tailCompact hrest
    have hfirst := hshape c d (hc c List.mem_cons_self).1 (hd d List.mem_cons_self).1 hvals
    exact congrArg₂ List.cons hfirst ih

section Compact

variable {V : Type} {T : LeafClass V} (L : ListLike T) {maxSize : Nat}

theorem layout_of_isCompact {h : Nat} {n : Inner (Node T.Leaf h)} (hn : WellFormed L maxSize (h + 1) n)
    (hc : isCompact T (h + 1) n = true) : n.form.layout = .compact (maxSize ^ (h + 1)) := by
  change n.form.isCompact = true at hc
  cases hform : n.form with
  | general r offsets =>
    rw [hform] at hc
    cases hc
  | compact e =>
    obtain ⟨he, -⟩ := hn.compact_form e (by rw [hform]; rfl)
    rw [he]
    rfl

theorem nodeShape_eq_of_compact : ∀ (h : Nat) (m n : Node T.Leaf h), WellFormed L maxSize h m →
    WellFormed L maxSize h n →
    isCompact T h m = true → isCompact T h n = true → nodeValues L h m = nodeValues L h n →
    nodeShape L h m = nodeShape L h n
  | 0, _, _, _, _, _, _, heq => heq
  | h + 1, m, n, hm, hn, hcm, hcn, heq => by
    have hlaym := layout_of_isCompact L hm hcm
    have hlayn := layout_of_isCompact L hn hcn
    have hlocm := hm.located
    have hlocn := hn.located
    rw [hlaym] at hlocm
    rw [hlayn] at hlocn
    have hchildren := map_eq_of_flatMap_eq
      (fun a b (ha : WellFormed L maxSize h a ∧ isCompact T h a = true)
        (hb : WellFormed L maxSize h b ∧ isCompact T h b = true) =>
        nodeShape_eq_of_compact h a b ha.1 hb.1 ha.2 hb.2)
      (fun c hc => ⟨⟨hm.child_ok c hc, (hm.compact_form _ hlaym).2 c hc⟩, hm.child_nonempty c hc⟩)
      (fun c hc => ⟨⟨hn.child_ok c hc, (hn.compact_form _ hlayn).2 c hc⟩, hn.child_nonempty c hc⟩) hlocm hlocn heq
    have hsize : m.treeSize = n.treeSize := by
      rw [hm.size_eq, hn.size_eq, span_len, span_len]
      exact congrArg List.length heq
    have hholdsm : Inner.Holds m (.compact (maxSize ^ (h + 1))) m.children m.treeSize := ⟨hlaym, rfl, rfl⟩
    have hholdsn : Inner.Holds n (.compact (maxSize ^ (h + 1))) n.children n.treeSize := ⟨hlayn, rfl, rfl⟩
    refine (hholdsm.level_eq (nodeShape L h)).trans ?_
    rw [hchildren, hsize]
    exact (hholdsn.level_eq (nodeShape L h)).symm

theorem lt_length_of_isCompact {h : Nat} {n : Inner (Node T.Leaf h)} (hn : WellFormed L maxSize (h + 1) n)
    (hc : isCompact T (h + 1) n = true) (hroot : RootOk T (h + 1) n) :
    maxSize ^ (h + 1) < (nodeValues L (h + 1) n).length := by
  have hroot' : 2 ≤ n.children.length := hroot
  obtain ⟨a, b, rest, hcs⟩ : ∃ a b rest, n.children = a :: b :: rest := by
    match hcs : n.children, hroot' with
    | a :: b :: rest, _ => exact ⟨a, b, rest, rfl⟩
  have hloc := hn.located
  rw [layout_of_isCompact L hn hc, hcs] at hloc
  have ha : len (nodeValues L h) a = maxSize ^ (h + 1) := hloc.2.1 a (by simp)
  have hb := hn.child_pos b (by simp [hcs])
  change _ < (n.children.flatMap (nodeValues L h)).length
  rw [hcs]
  simp only [len, List.flatMap_cons, List.length_append] at ha hb ⊢
  omega

theorem height_le_of_compact (hmax : 1 ≤ maxSize) {t u : Tree T} {xs : List V} (ht : t.Inv L maxSize xs)
    (hu : u.Inv L maxSize xs) (hct : isCompact T t.height t.root = true) (hcu : isCompact T u.height u.root = true) :
    t.height ≤ u.height := by
  by_contra hlt
  have hle := length_le_of_isCompact L maxSize u.height u.root hu.wellFormed hcu
  obtain ⟨h, root, size, cache⟩ := t
  obtain ⟨hvals, hwf, hroot, -, -⟩ := ht
  have huvals : nodeValues L u.height u.root = xs := hu.values_eq
  rw [huvals] at hle
  cases h with
  | zero => exact hlt (Nat.zero_le _)
  | succ h =>
    have hgt := lt_length_of_isCompact L hwf hct hroot
    have htvals : nodeValues L (h + 1) root = xs := hvals
    rw [htvals] at hgt
    have hpow : maxSize ^ (u.height + 1) ≤ maxSize ^ (h + 1) := by
      refine Nat.pow_le_pow_right hmax ?_
      have hlt' : ¬ h + 1 ≤ u.height := hlt
      omega
    omega

/-- **The list determines the shape** of a tree in compact form. -/
theorem shape_eq_of_compact (hmax : 1 ≤ maxSize) {t u : Tree T} {xs : List V} (ht : t.Inv L maxSize xs)
    (hu : u.Inv L maxSize xs) (hct : isCompact T t.height t.root = true) (hcu : isCompact T u.height u.root = true) :
    t.shape L = u.shape L := by
  have hheight : t.height = u.height :=
    Nat.le_antisymm (height_le_of_compact L hmax ht hu hct hcu) (height_le_of_compact L hmax hu ht hcu hct)
  obtain ⟨h, root, size, cache⟩ := t
  obtain ⟨h', root', size', cache'⟩ := u
  obtain rfl : h = h' := hheight
  have hvals : nodeValues L h root = nodeValues L h root' := ht.values_eq.trans hu.values_eq.symm
  exact congrArg (Sigma.mk h) (nodeShape_eq_of_compact L h root root' ht.wellFormed hu.wellFormed hct hcu hvals)

end Compact

end Llbt.BPlusTree
