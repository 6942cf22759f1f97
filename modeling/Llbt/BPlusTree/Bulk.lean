import Llbt.BPlusTree.Shape

/-!
# Adding many elements at once (`add_from`, `add_range`, `bulk_adopt_leaves`)

Into a tree with elements `add_from` goes in rounds: the last leaf is filled up, or hung in as a new leaf where the last
one is full.  An empty tree is replaced: the leaves are made first, and `bulk_adopt_leaves` then puts the inner levels
over them.

* `Tree.addRange` — the source's `add_range`;
* `addRound_spec` — a round leaves the shape that adding its elements one by one leaves;
* `adoptLevels_spec` — the levels over the leaves are in compact form and give a well-formed tree;
* `addRange_eq_adds` — the tree after `add_range` is the tree after one `add` for each element.
-/

set_option autoImplicit false

namespace Llbt.BPlusTree

open Ownership Segments

/-! ## The model -/

namespace Inner

variable {C : Type}

/-- One inner node of `bulk_adopt_leaves`, over at most `maxSize` nodes of the level below. -/
def adopt (elemsPerChild : Nat) (group : List C) (subSize : Nat) : Prog (Inner C) := do
  let inner ← create elemsPerChild
  let inner ← inner.addBpNodeRefs (group.map (·, 0))
  inner.setTreeSize subSize

/-- The inner loop of `bulk_adopt_leaves`; `i` counts the nodes of the level that are done. -/
def adoptLevel (maxSize elemsPerChild totalSize : Nat) : (fuel i : Nat) → List C → Prog (List (Inner C))
  | _, _, [] => pure []
  | 0, _, _ :: _ => failure
  | fuel + 1, i, c :: cs => do
    let group := (c :: cs).take maxSize
    let rest := (c :: cs).drop maxSize
    let subSize := if group.length < (c :: cs).length then group.length * elemsPerChild
      else totalSize - i * elemsPerChild
    let inner ← adopt elemsPerChild group subSize
    let next ← adoptLevel maxSize elemsPerChild totalSize fuel (i + maxSize) rest
    pure (inner :: next)

end Inner

section Model

variable {V : Type} (T : LeafClass V) (maxSize : Nat)

/-- The outer loop of `bulk_adopt_leaves`: one level over the other until a single node is left. -/
def adoptLevels (totalSize : Nat) : (fuel h : Nat) → (elemsPerChild : Nat) → List (Node T.Leaf h) →
    Prog ((h : Nat) × Node T.Leaf h)
  | _, _, _, [] => failure
  | _, h, _, [n] => pure ⟨h, n⟩
  | 0, _, _, _ :: _ :: _ => failure
  | fuel + 1, h, elemsPerChild, m :: n :: level => do
    let next ← Inner.adoptLevel maxSize elemsPerChild totalSize (m :: n :: level).length 0 (m :: n :: level)
    adoptLevels totalSize fuel (h + 1) (elemsPerChild * maxSize) next

/-- `bulk_adopt_leaves`: the old root is destroyed. -/
def Tree.bulkAdoptLeaves (t : Tree T) (leaves : List T.Leaf) (totalSize : Nat) : Prog (Tree T) := do
  let root ← adoptLevels T maxSize totalSize leaves.length 0 maxSize leaves
  freeAll (nodeBlocks T t.height t.root)
  pure ⟨root.1, root.2, totalSize, none⟩

/-- The leaves that `add_from` makes for an empty tree. -/
def createLeaves : (fuel : Nat) → List V → Prog (List T.Leaf)
  | _, [] => pure []
  | 0, _ :: _ => failure
  | fuel + 1, v :: vs => do
    let leaf ← T.createFrom ((v :: vs).take maxSize)
    let leaves ← createLeaves fuel ((v :: vs).drop maxSize)
    pure (leaf :: leaves)

/-- `bptree_access(n, ..)` with a function that looks at the leaf. -/
def Tree.access (t : Tree T) (i : Nat) : Option (T.Leaf × Tree T) :=
  match t with
  | ⟨0, l, _, _⟩ => some (l, t)
  | ⟨h + 1, root, size, _⟩ => (bptreeAccess T (h + 1) root i 0).map (fun c => (c.leaf, ⟨h + 1, root, size, some c⟩))

/-- One round of `add_from` in a tree with elements, and the elements that are left. -/
def Tree.addRound (t : Tree T) (values : List V) : Prog (Tree T × List V) :=
  match t.access T (t.size - 1) with
  | none => failure
  | some (tail, t) =>
    if T.size tail = maxSize then do
      let chunk := values.take maxSize
      let leaf ← T.createFrom chunk
      let t ← Tree.bptreeInsert T maxSize t none (.appendLeaf chunk.length leaf)
      pure (t, values.drop maxSize)
    else do
      let chunk := values.take (maxSize - T.size tail)
      let t ← Tree.bptreeInsert T maxSize t none (.call chunk.length (fun l _ => T.append l chunk))
      pure (t, values.drop (maxSize - T.size tail))

/-- The loop of `add_from`. -/
def Tree.addRounds : (fuel : Nat) → Tree T → List V → Prog (Tree T)
  | _, t, [] => pure t
  | 0, _, _ :: _ => failure
  | fuel + 1, t, v :: vs => do
    let (t, rest) ← t.addRound T maxSize (v :: vs)
    addRounds fuel t rest

/-- `add_range(values, count)`, which is `add_from` with a copy from `values`. -/
def Tree.addRange (t : Tree T) (values : List V) : Prog (Tree T) :=
  if values.length = 0 then pure t
  else if t.size = 0 then do
    let leaves ← createLeaves T maxSize values.length values
    t.bulkAdoptLeaves T maxSize leaves values.length
  else t.addRounds T maxSize values.length values

end Model

/-! ## Levels in compact form -/

section Level

variable {C V : Type} {maxSize full : Nat} {ok : C → Prop} {compact : C → Bool} {vals : C → List V}

/-- The nodes of a level before the next one is put over them: complete but for the last. -/
structure Ready (full : Nat) (ok : C → Prop) (compact : C → Bool) (vals : C → List V) (cs : List C) : Prop where
  child_ok : ∀ c ∈ cs, ok c
  child_compact : ∀ c ∈ cs, compact c = true
  child_nonempty : ∀ c ∈ cs, vals c ≠ []
  located : Located (len vals) (.compact full) cs

theorem Ready.nil (hfull : 0 < full) : Ready full ok compact vals [] :=
  ⟨fun _ h => absurd h List.not_mem_nil, fun _ h => absurd h List.not_mem_nil, fun _ h => absurd h List.not_mem_nil,
    hfull, fun _ h => absurd h List.not_mem_nil, fun _ h => absurd h List.not_mem_nil⟩

theorem Ready.cons {c : C} {cs : List C} (h : Ready full ok compact vals cs) (hok : ok c) (hcompact : compact c = true)
    (hne : vals c ≠ []) (hle : (vals c).length ≤ full) (hfull : cs ≠ [] → (vals c).length = full) :
    Ready full ok compact vals (c :: cs) := by
  refine ⟨List.forall_mem_cons.mpr ⟨hok, h.child_ok⟩, List.forall_mem_cons.mpr ⟨hcompact, h.child_compact⟩,
    List.forall_mem_cons.mpr ⟨hne, h.child_nonempty⟩, h.located.1, ?_, List.forall_mem_cons.mpr ⟨hle, h.located.2.2⟩⟩
  cases cs with
  | nil => exact fun _ h => absurd h List.not_mem_nil
  | cons d cs =>
    rw [List.dropLast_cons_cons]
    exact List.forall_mem_cons.mpr ⟨hfull (List.cons_ne_nil d cs), h.located.2.1⟩

theorem Ready.left {cs ds : List C} (h : Ready full ok compact vals (cs ++ ds)) : Ready full ok compact vals cs := by
  have hmem : ∀ c ∈ cs, c ∈ cs ++ ds := fun c hc => List.mem_append_left ds hc
  refine ⟨fun c hc => h.child_ok c (hmem c hc), fun c hc => h.child_compact c (hmem c hc),
    fun c hc => h.child_nonempty c (hmem c hc), h.located.1, fun c hc => h.located.2.1 c ?_,
    fun c hc => h.located.2.2 c (hmem c hc)⟩
  cases ds with
  | nil => rwa [List.append_nil]
  | cons d ds => exact mem_dropLast_of_mem_left (List.dropLast_subset cs hc)

theorem Ready.right {cs ds : List C} (h : Ready full ok compact vals (cs ++ ds)) : Ready full ok compact vals ds := by
  have hmem : ∀ d ∈ ds, d ∈ cs ++ ds := fun d hd => List.mem_append_right cs hd
  refine ⟨fun d hd => h.child_ok d (hmem d hd), fun d hd => h.child_compact d (hmem d hd),
    fun d hd => h.child_nonempty d (hmem d hd), h.located.1, fun d hd => h.located.2.1 d ?_,
    fun d hd => h.located.2.2 d (hmem d hd)⟩
  cases ds with
  | nil => cases hd
  | cons e ds =>
    rw [List.dropLast_append_of_ne_nil (List.cons_ne_nil e ds)]
    exact List.mem_append_right cs hd

theorem Ready.span_left {cs ds : List C} (h : Ready full ok compact vals (cs ++ ds)) (hds : ds ≠ []) :
    span (len vals) cs = cs.length * full := by
  obtain ⟨d, ds, rfl⟩ := List.exists_cons_of_ne_nil hds
  exact span_of_equal _ fun c hc => h.located.2.1 c (mem_dropLast_of_mem_left hc)

theorem Ready.span_le (cs : List C) (h : Ready full ok compact vals cs) : span (len vals) cs ≤ cs.length * full :=
  Segments.span_le _ h.located.2.2

namespace Inner

theorem holds_adopt (e : Nat) (group : List C) (sz : Nat) :
    Yields (adopt e group sz) (·.Holds (.compact e) group sz) := by
  refine (holds_create e).bind fun n₀ h₀ => (holds_addBpNodeRefs _ h₀).bind fun n₁ h₁ =>
    (holds_setTreeSize h₁ sz).mono fun n₂ h₂ => ⟨h₂.layout, ?_, h₂.treeSize⟩
  rw [h₂.children, List.nil_append, List.map_map]
  exact List.map_id group

theorem laid_of_ready {n : Inner C} {group : List C} (hne : group ≠ []) (hlen : group.length ≤ maxSize)
    (hready : Ready full ok compact vals group) (hn : n.Holds (.compact full) group (span (len vals) group)) :
    n.Laid maxSize full ok compact vals :=
  hn.laid ⟨hne, hlen, hready.child_ok, hready.child_nonempty, rfl, hready.located,
    fun _ he => ⟨(Layout.compact.inj he).symm, hready.child_compact⟩⟩

/-- **One level**: its nodes are again complete but for the last, and fewer. -/
theorem adoptLevel_spec (hmax : 2 ≤ maxSize) (total : Nat) : ∀ (fuel i : Nat) (cs : List C), cs.length ≤ fuel →
    Ready full ok compact vals cs → (cs ≠ [] → total = i * full + span (len vals) cs) →
    Yields (adoptLevel maxSize full total fuel i cs) (fun next =>
      Ready (full * maxSize) (·.Laid maxSize full ok compact vals) (·.form.isCompact) (·.children.flatMap vals) next ∧
      next.flatMap (·.children) = cs ∧ 2 * next.length ≤ cs.length + 1)
  | fuel, i, [], _, hready, _ => by
    have hnil : adoptLevel maxSize full total fuel i ([] : List C) = pure [] := by cases fuel <;> rfl
    rw [hnil]
    exact Yields.pure ⟨Ready.nil (Nat.mul_pos hready.located.1 (by omega)), rfl, Nat.zero_le _⟩
  | 0, _, _ :: _, hfuel, _, _ => absurd hfuel (by simp)
  | fuel + 1, i, c :: cs, hfuel, hready, htotal => by
    have hcut : (c :: cs).take maxSize ++ (c :: cs).drop maxSize = c :: cs := List.take_append_drop _ _
    have hlen : ((c :: cs).take maxSize).length = min maxSize (c :: cs).length := List.length_take
    have hrestLen : ((c :: cs).drop maxSize).length = (c :: cs).length - maxSize := List.length_drop
    have htotal' := htotal (List.cons_ne_nil c cs)
    have hready' := hready
    rw [← hcut] at hready' htotal'
    unfold adoptLevel
    dsimp only
    generalize hgroup : (c :: cs).take maxSize = group at *
    generalize hrest : (c :: cs).drop maxSize = rest at *
    rw [span_append] at htotal'
    have hcons : (c :: cs).length = cs.length + 1 := rfl
    -- A group before another one is complete, so its size is known without looking at the nodes.
    have hsub : (if group.length < (c :: cs).length then group.length * full else total - i * full) =
        span (len vals) group := by
      split
      · exact (hready'.span_left (List.length_pos_iff.mp (by omega))).symm
      · have hnil : rest = [] := List.length_eq_zero_iff.mp (by omega)
        rw [htotal', hnil, span_nil]
        omega
    rw [hsub]
    refine (holds_adopt full group _).bind fun inner hinner => ?_
    have hlaid : inner.Laid maxSize full ok compact vals :=
      laid_of_ready (List.length_pos_iff.mp (by omega)) (by omega) hready'.left hinner
    have ih := adoptLevel_spec hmax total fuel (i + maxSize) rest (by omega) hready'.right fun hne => by
      have hfullLen : group.length = maxSize := by
        have hpos := List.length_pos_iff.mpr hne
        omega
      rw [htotal', hready'.span_left hne, hfullLen, Nat.add_mul, Nat.add_assoc]
    refine ih.bind fun next hnext => Yields.pure ?_
    obtain ⟨hready'', hchildren, hfew⟩ := hnext
    have hspan : (inner.children.flatMap vals).length = span (len vals) group := by rw [hinner.children, span_len]
    have hbound : span (len vals) group ≤ full * maxSize := by
      refine (hready'.left.span_le _).trans ?_
      rw [Nat.mul_comm]
      exact Nat.mul_le_mul_left full (by omega)
    refine ⟨hready''.cons hlaid ?_ hlaid.values_ne_nil (hspan.le.trans hbound) fun hne => ?_, ?_, ?_⟩
    · rw [hinner.isCompact_eq]
      rfl
    · have hpos := List.length_pos_iff.mpr hne
      rw [hspan, hready'.span_left (List.length_pos_iff.mp (by omega)), Nat.mul_comm]
      exact congrArg (full * ·) (by omega)
    · rw [List.flatMap_cons, hinner.children, hchildren, hcut]
    · rw [List.length_cons]
      omega

end Inner

end Level

section Trees

variable {V : Type} {T : LeafClass V} (L : ListLike T) {maxSize : Nat}

/-- The nodes of one level of a tree that is being built. -/
abbrev LevelReady (maxSize h : Nat) (level : List (Node T.Leaf h)) : Prop :=
  Ready (maxSize ^ (h + 1)) (WellFormed L maxSize h) (isCompact T h) (nodeValues L h) level

theorem adoptLevels_spec (hmax : 2 ≤ maxSize) (total : Nat) : ∀ (fuel h : Nat) (level : List (Node T.Leaf h)),
    level.length ≤ fuel + 1 → level ≠ [] → LevelReady L maxSize h level → (∀ n, level = [n] → RootOk T h n) →
    total = (level.flatMap (nodeValues L h)).length →
    Yields (adoptLevels T maxSize total fuel h (maxSize ^ (h + 1)) level) (fun r => WellFormed L maxSize r.1 r.2 ∧
      isCompact T r.1 r.2 = true ∧ nodeValues L r.1 r.2 = level.flatMap (nodeValues L h) ∧ RootOk T r.1 r.2)
  | _, _, [], _, hne, _, _, _ => absurd rfl hne
  | fuel, h, [n], _, _, hready, hroot, _ => by
    cases fuel <;> exact Yields.pure ⟨hready.child_ok n List.mem_cons_self, hready.child_compact n List.mem_cons_self,
      (List.flatMap_singleton _ n).symm, hroot n rfl⟩
  | 0, _, m :: n :: level, hfuel, _, _, _, _ => by
    rw [List.length_cons, List.length_cons] at hfuel
    omega
  | fuel + 1, h, m :: n :: level, hfuel, _, hready, _, htotal => by
    have htotal' : total = 0 * maxSize ^ (h + 1) + span (len (nodeValues L h)) (m :: n :: level) := by
      rw [htotal, span_len, Nat.zero_mul, Nat.zero_add]
    refine (Inner.adoptLevel_spec hmax total _ 0 _ le_rfl hready fun _ => htotal').bind fun next hnext => ?_
    obtain ⟨hready', hchildren, hfew⟩ := hnext
    rw [← pow_succ] at hready' ⊢
    have hvals : next.flatMap (nodeValues L (h + 1)) = (m :: n :: level).flatMap (nodeValues L h) := by
      rw [← hchildren, List.flatMap_assoc]
      rfl
    rw [List.length_cons, List.length_cons] at hfuel hfew
    have hless : next.length ≤ fuel + 1 := by omega
    have hne : next ≠ [] := by
      rintro rfl
      cases hchildren
    have hroot : ∀ r, next = [r] → 2 ≤ r.children.length := by
      intro r hr
      rw [hr, List.flatMap_singleton] at hchildren
      rw [hchildren, List.length_cons, List.length_cons]
      omega
    rw [← hvals] at htotal ⊢
    exact adoptLevels_spec hmax total fuel (h + 1) next hless hne hready' hroot htotal

/-- What a leaf class owes where many elements are added at once. -/
structure BulkLike : Prop where
  createFrom : ∀ vs, Yields (T.createFrom vs) (fun l => L.Valid l ∧ L.values l = vs)
  append : ∀ l vs, L.Valid l → Yields (T.append l vs) (fun l' => L.Valid l' ∧ L.values l' = L.values l ++ vs)

variable {L}

theorem createLeaves_spec (hbulk : BulkLike L) (hmax : 1 ≤ maxSize) : ∀ (fuel : Nat) (vs : List V), vs.length ≤ fuel →
    Yields (createLeaves T maxSize fuel vs) (fun leaves =>
      Ready maxSize (fun l => L.Valid l ∧ (L.values l).length ≤ maxSize) (fun _ => true) L.values leaves ∧
      leaves.flatMap L.values = vs ∧ leaves.length ≤ vs.length)
  | fuel, [], _ => by
    have hnil : createLeaves T maxSize fuel ([] : List V) = pure [] := by cases fuel <;> rfl
    rw [hnil]
    exact Yields.pure ⟨Ready.nil hmax, rfl, le_rfl⟩
  | 0, _ :: _, hfuel => absurd hfuel (by simp)
  | fuel + 1, v :: vs, hfuel => by
    have hcut : (v :: vs).take maxSize ++ (v :: vs).drop maxSize = v :: vs := List.take_append_drop _ _
    have hlen : ((v :: vs).take maxSize).length = min maxSize (v :: vs).length := List.length_take
    have hrestLen : ((v :: vs).drop maxSize).length = (v :: vs).length - maxSize := List.length_drop
    unfold createLeaves
    generalize (v :: vs).take maxSize = chunk at *
    generalize (v :: vs).drop maxSize = rest at *
    have hcons : (v :: vs).length = vs.length + 1 := rfl
    refine (hbulk.createFrom chunk).bind fun leaf hleaf => ?_
    obtain ⟨hvalid, hvals⟩ := hleaf
    refine (createLeaves_spec hbulk hmax fuel rest (by omega)).bind fun leaves hleaves => Yields.pure ?_
    obtain ⟨hready, hrest, hfew⟩ := hleaves
    have hchunk : (L.values leaf).length = chunk.length := by rw [hvals]
    refine ⟨hready.cons ⟨hvalid, by omega⟩ rfl (List.length_pos_iff.mp (by omega)) (by omega) fun hne => ?_, ?_, ?_⟩
    · have hpos := List.length_pos_iff.mpr hne
      omega
    · rw [List.flatMap_cons, hrest, hvals, hcut]
    · rw [List.length_cons]
      omega

/-- **An empty tree** takes over the leaves in compact form. -/
theorem inv_adopt (hbulk : BulkLike L) (hmax : 2 ≤ maxSize) (t : Tree T) {vs : List V} (hne : vs ≠ []) :
    Yields (do
        let leaves ← createLeaves T maxSize vs.length vs
        t.bulkAdoptLeaves T maxSize leaves vs.length)
      (fun t' => t'.Inv L maxSize vs ∧ isCompact T t'.height t'.root = true) := by
  refine (createLeaves_spec hbulk (by omega) vs.length vs le_rfl).bind fun leaves hleaves => ?_
  obtain ⟨hready, hvals, hfew⟩ := hleaves
  have hleavesNe : leaves ≠ [] := by
    rintro rfl
    exact hne hvals.symm
  have hready' : LevelReady L maxSize 0 leaves := by
    change Ready (maxSize ^ (0 + 1)) _ _ _ _
    rw [Nat.zero_add, pow_one]
    exact hready
  have hlevels := adoptLevels_spec L hmax vs.length leaves.length 0 leaves (Nat.le_succ _) hleavesNe hready'
    (fun _ _ => trivial) (congrArg List.length hvals).symm
  rw [Nat.zero_add, pow_one] at hlevels
  refine hlevels.bind fun root hroot => (Yields.freeAll _).bind fun _ _ => Yields.pure ?_
  obtain ⟨hwf, hcompact, hrootVals, hrootOk⟩ := hroot
  exact ⟨⟨hrootVals.trans hvals, hwf, hrootOk, rfl, fun _ => rfl, fun c hc => by cases hc⟩, hcompact⟩

/-! ## Rounds -/

/-- An append at the last leaf: what the tree needs of it, and what it does to the shape. -/
def AppendsTo (L : ListLike T) (maxSize : Nat) (func : InsertFunc T.Leaf) (vs : List V) (l : T.Leaf) : Prop :=
  Yields (leafInsert T maxSize func l none) (fun r => LeafOutcome L maxSize (splice none vs (L.values l)) true l r ∧
    (L.values r.1, r.2.1.map (Split.map L.values)) = grow maxSize vs 0 (L.values l))

theorem appendsTo_of_room {f : T.Leaf → Nat → Prog T.Leaf} {vs : List V} {l : T.Leaf} (hl : WellFormed L maxSize 0 l)
    (hroom : (L.values l).length < maxSize) (hne : vs ≠ []) (hle : (L.values l).length + vs.length ≤ maxSize)
    (hf : Yields (f l (T.size l)) (fun l' => L.Valid l' ∧ L.values l' = L.values l ++ vs)) :
    AppendsTo L maxSize (.call vs.length f) vs l := by
  have hsize : T.size l = (L.values l).length := L.size_eq l hl.1
  have hgrow : grow maxSize vs 0 (L.values l) = (L.values l ++ vs, none) := if_pos hroom
  unfold AppendsTo leafInsert
  dsimp only
  rw [Option.getD_none, Nat.min_self, if_pos (by omega), hgrow]
  refine hf.bind fun l' hl' => ?_
  obtain ⟨hvalid, hvals⟩ := hl'
  have hlen : (L.values l').length = (L.values l).length + vs.length := by rw [hvals, List.length_append]
  have hsize' := L.size_eq l' hvalid
  rw [if_pos ⟨by omega, by omega⟩]
  have hbound : (L.values l').length ≤ maxSize := by omega
  have hne' : L.values l' ≠ [] := by
    rw [hvals]
    exact List.append_ne_nil_of_right_ne_nil _ hne
  refine Yields.pure ⟨⟨⟨hvalid, hbound⟩, hne', fun _ => hvals, fun sp hsp => ?_, fun _ sp hsp => ?_, fun d hd => ?_⟩,
    ?_⟩
  · cases hsp
  · cases hsp
  · cases hd
    exact hlen
  · rw [hvals]
    rfl

theorem appendsTo_of_full {func : InsertFunc T.Leaf} {vs : List V} {l : T.Leaf} (hmax : 1 ≤ maxSize)
    (hl : WellFormed L maxSize 0 l) (hfull : (L.values l).length = maxSize) (hne : vs ≠ []) (hle : vs.length ≤ maxSize)
    (hfunc : Yields (leafInsert T maxSize func l none)
    (fun r => ∃ leaf, r = (l, some ⟨leaf, T.size l, T.size l + vs.length⟩, some 0) ∧
      L.Valid leaf ∧ L.values leaf = vs)) : AppendsTo L maxSize func vs l := by
  have hsize : T.size l = (L.values l).length := L.size_eq l hl.1
  have hgrow : grow maxSize vs 0 (L.values l) =
      (L.values l, some ⟨vs, (L.values l).length, (L.values l).length + vs.length⟩) := if_neg (by omega)
  have hne' : L.values l ≠ [] := List.length_pos_iff.mp (by omega)
  refine hfunc.mono ?_
  rintro _ ⟨leaf, rfl, hvalid, hvals⟩
  refine ⟨⟨hl, hne', fun hnone => ?_, fun sp hsp => ?_, fun _ _ _ => hfull, fun d hd => ?_⟩, ?_⟩
  · cases hnone
  · cases hsp
    refine ⟨⟨hvalid, by rw [hvals]; exact hle⟩, by rw [hvals]; exact hne, by rw [hvals]; rfl, hsize, ?_⟩
    rw [splice_length, hsize]
  · cases hd
    rfl
  · rw [hgrow]
    change (L.values l, some (⟨L.values leaf, T.size l, T.size l + vs.length⟩ : Split (List V))) = _
    rw [hvals, hsize]
    rfl

theorem appendsTo_insertValue (hmax : 1 ≤ maxSize) (v : V) {l : T.Leaf} (hl : WellFormed L maxSize 0 l) :
    AppendsTo L maxSize (insertValue T v) [v] l := by
  have hsize : T.size l = (L.values l).length := L.size_eq l hl.1
  have hbound : (L.values l).length ≤ maxSize := hl.2
  by_cases hroom : (L.values l).length < maxSize
  · refine appendsTo_of_room hl hroom (List.cons_ne_nil v []) hroom ?_
    have hinsert := L.insert l _ v hl.1 le_rfl
    rw [← splice_none_singleton] at hinsert
    rw [hsize]
    exact hinsert
  · refine appendsTo_of_full hmax hl (by omega) (List.cons_ne_nil v []) hmax ?_
    unfold leafInsert insertValue
    dsimp only
    rw [Option.getD_none, Nat.min_self, if_neg (by omega), if_pos rfl]
    refine L.create.bind fun new hnew => ?_
    obtain ⟨hvalid, hempty⟩ := hnew
    rw [if_pos rfl]
    refine (L.insert new 0 v hvalid (Nat.zero_le _)).bind fun new' hnew' => Yields.pure ⟨new', rfl, hnew'.1, ?_⟩
    rw [hnew'.2, hempty]
    rfl

theorem outcome_append {func : InsertFunc T.Leaf} {vs : List V} (hcount : func.count = vs.length) :
    ∀ (h : Nat) (n : Node T.Leaf h) (off : Nat), WellFormed L maxSize h n →
      (∀ l, tailLeaf T h n = some l → AppendsTo L maxSize func vs l) →
      Yields (bptreeInsert T maxSize func h n none off)
        (Outcome L.Valid L.values (maxSize ^ (h + 1)) (WellFormed L maxSize h) (isCompact T h)
          (nodeSize T h) (nodeValues L h) (splice none vs (nodeValues L h n)) off (nodeSize T h n)
          true (isCompact T h n))
  | 0, l, off, hl, happ => outcome_leaf L off hl ((happ l rfl).mono fun _ hr => hr.1)
  | h + 1, n, off, hn, happ => by
    have hinsert : ∀ c ndx' off', WellFormed L maxSize h c → ndx'.isNone = (none : Option Nat).isNone →
        (ndx' = none → n.children.getLast? = some c) → Yields (bptreeInsert T maxSize func h c ndx' off')
          (Outcome L.Valid L.values (maxSize ^ (h + 1)) (WellFormed L maxSize h) (isCompact T h) (nodeSize T h)
            (nodeValues L h) (splice ndx' vs (nodeValues L h c)) off' (nodeSize T h c) ndx'.isNone
              (isCompact T h c)) := by
      intro c ndx' off' hc hnone hlast
      obtain rfl : ndx' = none := Option.isNone_iff_eq_none.mp hnone
      refine outcome_append hcount h c off' hc fun l hl => happ l ?_
      change n.children.getLast?.bind (tailLeaf T h) = some l
      rw [hlast rfl]
      exact hl
    have hstep := Inner.outcome_inner (nodeRef T h) (length_le_of_isCompact L maxSize h) hn off
      (fun c ndx' off' hc _ _ hnone hlast => hinsert c ndx' off' hc hnone hlast)
        (fun i hi => absurd hi.symm (Option.some_ne_none i))
    rw [← hcount, ← pow_succ'] at hstep
    exact hstep

/-- **An append to a tree**, with the shape it leaves. -/
theorem inv_append (hmax : 2 ≤ maxSize) {func : InsertFunc T.Leaf} {vs : List V} (hcount : func.count = vs.length)
    {t : Tree T} {xs : List V} (ht : t.Inv L maxSize xs)
    (happ : ∀ l, tailLeaf T t.height t.root = some l → AppendsTo L maxSize func vs l) :
    Yields (Tree.bptreeInsert T maxSize t none func)
      (fun t' => t'.Inv L maxSize (xs ++ vs) ∧ t'.shape L = growTree maxSize vs (t.shape L)) := by
  refine (inv_bptreeInsert_of L hmax hcount ht none ?_).and
    (shape_bptreeInsert L hcount ht.wellFormed fun l hl => (happ l hl).mono fun _ hr => hr.2)
  rw [if_neg (Option.some_ne_none _).symm]
  have hwf := ht.wellFormed
  obtain ⟨h, root, size, cache⟩ := t
  cases h with
  | zero => exact (happ root rfl).mono fun _ hr => hr.1
  | succ h => exact outcome_append hcount (h + 1) root 0 hwf happ

theorem access_tailLeaf : ∀ (h : Nat) (n : Node T.Leaf h) (off : Nat), WellFormed L maxSize h n →
    nodeValues L h n ≠ [] →
    ∃ c, bptreeAccess T h n ((nodeValues L h n).length - 1) off = some c ∧ tailLeaf T h n = some c.leaf
  | 0, l, off, _, _ => ⟨_, rfl, rfl⟩
  | h + 1, n, off, hn, hne => by
    have hpos : 0 < (n.children.flatMap (nodeValues L h)).length := List.length_pos_iff.mpr hne
    obtain ⟨pre, c, post, hcs, hindex, hoffset, hle, hlt, hok⟩ :=
      Inner.exists_child hn (Nat.sub_lt hpos Nat.one_pos)
    have hlen : (n.children.flatMap (nodeValues L h)).length = (pre.flatMap (nodeValues L h)).length +
        ((nodeValues L h c).length + (post.flatMap (nodeValues L h)).length) := by
      rw [hcs]
      simp
    -- The element before the end is in the last child, for no child is empty.
    have hpost : post = [] := by
      by_contra hpost
      obtain ⟨d, post, rfl⟩ := List.exists_cons_of_ne_nil hpost
      have hd := List.length_pos_iff.mpr (hn.child_nonempty d (by simp [hcs]))
      rw [List.flatMap_cons, List.length_append] at hlen
      omega
    subst hpost
    have hsub : (n.children.flatMap (nodeValues L h)).length - 1 - (pre.flatMap (nodeValues L h)).length =
        (nodeValues L h c).length - 1 := by
      rw [List.flatMap_nil, List.length_nil] at hlen
      omega
    obtain ⟨cache, hcache, htail⟩ := access_tailLeaf h c ((pre.flatMap (nodeValues L h)).length + off) hok
      (hn.child_nonempty c (by simp [hcs]))
    refine ⟨cache, ?_, ?_⟩
    · change Inner.bptreeAccess (bptreeAccess T h) n ((n.children.flatMap (nodeValues L h)).length - 1) off = some cache
      unfold Inner.bptreeAccess
      dsimp only
      rw [hindex, hoffset, hsub, hcs, getElem?_mid]
      exact hcache
    · change n.children.getLast?.bind (tailLeaf T h) = some cache.leaf
      rw [hcs, List.getLast?_concat]
      exact htail

theorem access_spec {t : Tree T} {xs : List V} (ht : t.Inv L maxSize xs) (hne : xs ≠ []) :
    ∃ l t', t.access T (t.size - 1) = some (l, t') ∧ tailLeaf T t'.height t'.root = some l ∧ t'.Inv L maxSize xs ∧
      t'.shape L = t.shape L := by
  have hsize := ht.size_eq
  obtain ⟨h, root, size, cache⟩ := t
  have ht' := ht
  obtain ⟨hvals, hwf, hroot, -, -⟩ := ht'
  cases h with
  | zero => exact ⟨root, _, rfl, rfl, ht, rfl⟩
  | succ h =>
    have hxs : nodeValues L (h + 1) root = xs := hvals
    have hsize' : size = (nodeValues L (h + 1) root).length := by rw [hxs]; exact hsize
    rw [← hxs] at hne
    have hlt : size - 1 < (nodeValues L (h + 1) root).length := by
      have hpos := List.length_pos_iff.mpr hne
      omega
    obtain ⟨c, hc, htail⟩ := access_tailLeaf (h + 1) root 0 hwf hne
    obtain ⟨c', hc', hrange, -, -⟩ := reaches_bptreeAccess L (h + 1) root (size - 1) 0 hwf hlt
    rw [← hsize'] at hc
    obtain rfl : c = c' := Option.some.inj (hc.symm.trans hc')
    refine ⟨c.leaf, ⟨h + 1, root, size, some c⟩, ?_, htail, ⟨hvals, hwf, hroot, hsize, ?_, ?_⟩, rfl⟩
    · change (bptreeAccess T (h + 1) root (size - 1) 0).map _ = _
      rw [hc]
      rfl
    · exact fun h0 => absurd h0 (Nat.succ_ne_zero h)
    · intro c' hc'
      cases hc'
      rw [← hxs]
      exact hrange

/-- **One round** is one `add` for each element it takes. -/
theorem addRound_spec (hbulk : BulkLike L) (hmax : 2 ≤ maxSize) {t : Tree T} {xs vs : List V} (ht : t.Inv L maxSize xs)
    (hxs : xs ≠ []) (hvs : vs ≠ []) : Yields (t.addRound T maxSize vs) (fun p => ∃ us, vs = us ++ p.2 ∧ us ≠ [] ∧
      p.1.Inv L maxSize (xs ++ us) ∧ p.1.shape L = addAll maxSize (t.shape L) us) := by
  obtain ⟨l, t₁, haccess, htail, ht₁, hshape⟩ := access_spec ht hxs
  obtain ⟨l', hl', hwf⟩ := exists_tailLeaf L t₁.height t₁.root ht₁.wellFormed
  obtain rfl : l' = l := Option.some.inj (hl'.symm.trans htail)
  have hlist : tail t₁.height (nodeShape L t₁.height t₁.root) = some (L.values l') := by
    rw [tail_nodeShape, htail]
    rfl
  have hsize : T.size l' = (L.values l').length := L.size_eq l' hwf.1
  have hbound : (L.values l').length ≤ maxSize := hwf.2
  have hpos := List.length_pos_iff.mpr hvs
  unfold Tree.addRound
  rw [haccess]
  dsimp only
  split
  · rename_i hfull
    have hchunk : (vs.take maxSize).length = min maxSize vs.length := List.length_take
    have hne : vs.take maxSize ≠ [] := List.length_pos_iff.mp (by omega)
    obtain ⟨u, us, hus⟩ := List.exists_cons_of_ne_nil hne
    refine (hbulk.createFrom (vs.take maxSize)).bind fun leaf hleaf => ?_
    have happ : ∀ m, tailLeaf T t₁.height t₁.root = some m →
        AppendsTo L maxSize (.appendLeaf (vs.take maxSize).length leaf) (vs.take maxSize) m := by
      intro m hm
      obtain rfl : l' = m := Option.some.inj (hl'.symm.trans hm)
      refine appendsTo_of_full (by omega) hwf (by omega) hne (by omega) ?_
      unfold leafInsert
      dsimp only
      rw [Option.getD_none, Nat.min_self, if_pos rfl]
      exact Yields.pure ⟨leaf, rfl, hleaf⟩
    refine (inv_append hmax rfl ht₁ happ).bind fun t₂ ht₂ => Yields.pure ⟨vs.take maxSize, ?_, hne, ht₂.1, ?_⟩
    · exact (List.take_append_drop maxSize vs).symm
    · have hadds : addAll maxSize (t₁.shape L) (vs.take maxSize) = growTree maxSize (vs.take maxSize) (t₁.shape L) := by
        rw [hus] at hchunk ⊢
        exact adds_of_full hlist (by omega) (by omega)
      rw [ht₂.2, ← hadds, hshape]
  · rename_i hroom
    have hchunk : (vs.take (maxSize - T.size l')).length = min (maxSize - T.size l') vs.length := List.length_take
    have hne : vs.take (maxSize - T.size l') ≠ [] := List.length_pos_iff.mp (by omega)
    have happ : ∀ m, tailLeaf T t₁.height t₁.root = some m →
        AppendsTo L maxSize (.call (vs.take (maxSize - T.size l')).length
          (fun l _ => T.append l (vs.take (maxSize - T.size l')))) (vs.take (maxSize - T.size l')) m := by
      intro m hm
      obtain rfl : l' = m := Option.some.inj (hl'.symm.trans hm)
      exact appendsTo_of_room hwf (by omega) hne (by omega) (hbulk.append l' _ hwf.1)
    refine (inv_append hmax rfl ht₁ happ).bind fun t₂ ht₂ =>
      Yields.pure ⟨vs.take (maxSize - T.size l'), ?_, hne, ht₂.1, ?_⟩
    · exact (List.take_append_drop _ vs).symm
    · have hadds : addAll maxSize (t₁.shape L) (vs.take (maxSize - T.size l')) = fillTree _ (t₁.shape L) :=
        adds_of_room _ hlist (by omega)
      have hgrow : growTree maxSize (vs.take (maxSize - T.size l')) (t₁.shape L) = fillTree _ (t₁.shape L) :=
        growTree_of_room hlist (by omega)
      rw [ht₂.2, hgrow, ← hadds, hshape]

theorem addRounds_spec (hbulk : BulkLike L) (hmax : 2 ≤ maxSize) :
    ∀ (fuel : Nat) {t : Tree T} {xs : List V} (vs : List V),
    vs.length ≤ fuel → t.Inv L maxSize xs → xs ≠ [] → Yields (t.addRounds T maxSize fuel vs)
      (fun t' => t'.Inv L maxSize (xs ++ vs) ∧ t'.shape L = addAll maxSize (t.shape L) vs)
  | fuel, t, xs, [], _, ht, _ => by
    have hnil : t.addRounds T maxSize fuel [] = pure t := by cases fuel <;> rfl
    rw [hnil, List.append_nil]
    exact Yields.pure ⟨ht, rfl⟩
  | 0, _, _, _ :: _, hfuel, _, _ => absurd hfuel (by simp)
  | fuel + 1, t, xs, v :: vs, hfuel, ht, hxs => by
    refine (addRound_spec hbulk hmax ht hxs (List.cons_ne_nil v vs)).bind ?_
    rintro ⟨t₁, rest⟩ ⟨us, hus, hne, ht₁, hshape⟩
    have hlen := congrArg List.length hus
    have hpos := List.length_pos_iff.mpr hne
    simp only [List.length_cons, List.length_append] at hlen hfuel
    refine (addRounds_spec hbulk hmax fuel rest (by omega) ht₁ (by simp [hxs])).mono fun t₂ ht₂ => ?_
    rw [hus, ← List.append_assoc]
    refine ⟨ht₂.1, ht₂.2.trans ?_⟩
    rw [hshape, addAll, addAll, addAll, List.foldl_append]

/-! ## Whole calls -/

theorem adds_spec (hmax : 2 ≤ maxSize) : ∀ (vs : List V) {t : Tree T} {xs : List V}, t.Inv L maxSize xs →
    Yields (runTree T maxSize (vs.map .add) t)
      (fun t' => t'.Inv L maxSize (xs ++ vs) ∧ t'.shape L = addAll maxSize (t.shape L) vs)
  | [], t, xs, ht => by
    rw [List.append_nil]
    exact Yields.pure ⟨ht, rfl⟩
  | v :: vs, t, xs, ht => by
    have happ : ∀ l, tailLeaf T t.height t.root = some l → AppendsTo L maxSize (insertValue T v) [v] l := by
      intro l hl
      obtain ⟨l', hl', hwf⟩ := exists_tailLeaf L t.height t.root ht.wellFormed
      obtain rfl : l' = l := Option.some.inj (hl'.symm.trans hl)
      exact appendsTo_insertValue (by omega) v hwf
    refine (inv_append hmax rfl ht happ).bind fun t₁ ht₁ => (adds_spec hmax vs ht₁.1).mono fun t₂ ht₂ => ?_
    rw [List.append_cons]
    refine ⟨ht₂.1, ht₂.2.trans ?_⟩
    rw [ht₁.2]
    rfl

theorem height_of_empty {t : Tree T} (ht : t.Inv L maxSize []) : t.height = 0 := by
  by_contra h0
  exact (ht.denotes L).root_nonempty h0 rfl

theorem addRange_spec (hbulk : BulkLike L) (hmax : 2 ≤ maxSize) {t : Tree T} {xs : List V} (ht : t.Inv L maxSize xs)
    (vs : List V) : Yields (t.addRange T maxSize vs)
      (fun t' => t'.Inv L maxSize (xs ++ vs) ∧ t'.shape L = addAll maxSize (t.shape L) vs) := by
  unfold Tree.addRange
  split
  · rename_i h0
    rw [List.length_eq_zero_iff.mp h0, List.append_nil]
    exact Yields.pure ⟨ht, rfl⟩
  · rename_i h0
    have hne : vs ≠ [] := fun hnil => h0 (congrArg List.length hnil)
    split
    · rename_i hempty
      obtain rfl : xs = [] := List.length_eq_zero_iff.mp (ht.size_eq.symm.trans hempty)
      refine (inv_adopt hbulk hmax t hne).mono fun t' ht' => ⟨ht'.1, ?_⟩
      -- Both trees are in compact form; the one that the additions leave is taken from any run of them.
      obtain ⟨u, -, -, hu, hushape⟩ := adds_spec hmax vs ht ⟨0, 0, [], 0, fun _ => false, 0⟩
      have hcompact : compactShape t.height (nodeShape L t.height t.root) = true := by
        have hheight := height_of_empty ht
        obtain ⟨h, root, size, cache⟩ := t
        obtain rfl : h = 0 := hheight
        rfl
      have hcu : compactShape (u.shape L).1 (u.shape L).2 = true := by
        rw [hushape]
        exact compactShape_addAll vs hcompact
      rw [← hushape]
      exact shape_eq_of_compact L (by omega) ht'.1 hu ht'.2 ((compactShape_nodeShape L u.height u.root).symm.trans hcu)
    · rename_i hfilled
      have hxs : xs ≠ [] := fun hnil => hfilled (by rw [ht.size_eq, hnil]; rfl)
      exact addRounds_spec hbulk hmax vs.length vs le_rfl ht hxs

/-- **`add_range` is repeated `add`.**  Both leave a well-formed tree with the elements behind those it had, and the
trees have the same shape: the same height, and in every inner node the same form, offsets, children and element
count. -/
theorem addRange_eq_adds (hbulk : BulkLike L) (hmax : 2 ≤ maxSize) {t : Tree T} {xs : List V} (ht : t.Inv L maxSize xs)
    (vs : List V) : ∃ shape : TreeShape V,
      Yields (t.addRange T maxSize vs) (fun t' => t'.Denotes L maxSize (xs ++ vs) ∧ t'.shape L = shape) ∧
      Yields (runTree T maxSize (vs.map .add) t) (fun t' => t'.Denotes L maxSize (xs ++ vs) ∧ t'.shape L = shape) :=
  ⟨addAll maxSize (t.shape L) vs, (addRange_spec hbulk hmax ht vs).mono fun _ h => ⟨h.1.denotes L, h.2⟩,
    (adds_spec hmax vs ht).mono fun _ h => ⟨h.1.denotes L, h.2⟩⟩

end Trees

theorem basicBulkLike (α : Type) [DecidableEq α] : BulkLike (Leaf.basicListLike α) where
  createFrom vs := (Leaf.Arr.yields_create []).bind fun a ha => (Leaf.Arr.yields_addAll vs a).mono fun a' ha' =>
    ⟨trivial, ha'.2.trans (by rw [ha.2, List.nil_append])⟩
  append a vs _ := Leaf.Arr.yields_addAll vs a

theorem integerBulkLike : BulkLike Leaf.integerListLike :=
  ⟨(basicBulkLike Int).createFrom, (basicBulkLike Int).append⟩

/-- Four elements for an integer tree of one, with two elements to a node. -/
theorem addRange_integers : (⟨0, ⟨0, [7]⟩, 1, none⟩ : Tree Leaf.integerClass).Inv Leaf.integerListLike 2 [7] ∧
    ∃ shape : TreeShape Int,
      Yields ((⟨0, ⟨0, [7]⟩, 1, none⟩ : Tree Leaf.integerClass).addRange Leaf.integerClass 2 [1, 2, 3, 4])
        (fun t => t.Denotes Leaf.integerListLike 2 [7, 1, 2, 3, 4] ∧ t.shape Leaf.integerListLike = shape) ∧
      Yields (runTree Leaf.integerClass 2 [.add 1, .add 2, .add 3, .add 4] ⟨0, ⟨0, [7]⟩, 1, none⟩)
        (fun t => t.Denotes Leaf.integerListLike 2 [7, 1, 2, 3, 4] ∧ t.shape Leaf.integerListLike = shape) := by
  have hone : (⟨0, ⟨0, [7]⟩, 1, none⟩ : Tree Leaf.integerClass).Inv Leaf.integerListLike 2 [7] :=
    ⟨rfl, ⟨trivial, by decide⟩, trivial, rfl, fun _ => rfl, fun c hc => by cases hc⟩
  exact ⟨hone, addRange_eq_adds integerBulkLike le_rfl hone [1, 2, 3, 4]⟩

end Llbt.BPlusTree
