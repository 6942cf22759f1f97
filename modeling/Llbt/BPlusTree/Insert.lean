import Llbt.BPlusTree.Invariant

/-!
# Insertion

`Outcome` is the contract of `bptree_insert` at any node: what is left of the node and the new
sibling, if it was split, are well formed and together denote the list with the new elements; the
offset and size reported to the parent are theirs; an append to a compact node leaves compact nodes
and splits a complete one only; and the leaf left in the cache sits where its bounds say.

`leafInsert` satisfies it (`outcome_leaf`), an inner node satisfies it if its children do
(`outcome_inner`), and hence every node does (`outcome_bptreeInsert`).
-/

set_option autoImplicit false

namespace Llbt.BPlusTree

open Ownership Segments

/-- `xs` with the elements `vs` inserted at `ndx`, or at the end. -/
def splice {V : Type} (ndx : Option Nat) (vs xs : List V) : List V :=
  match ndx with
  | none => xs ++ vs
  | some i => xs.take i ++ (vs ++ xs.drop i)

theorem splice_length {V : Type} (ndx : Option Nat) (vs xs : List V) :
    (splice ndx vs xs).length = xs.length + vs.length := by
  cases ndx with
  | none => simp [splice]
  | some i =>
    simp only [splice, List.length_append, List.length_take, List.length_drop]
    omega

theorem splice_mid {V : Type} {i : Nat} (vs a x b : List V) (hle : a.length ≤ i)
    (hlt : i ≤ a.length + x.length) :
    splice (some i) vs (a ++ (x ++ b)) = a ++ (splice (some (i - a.length)) vs x ++ b) := by
  simp only [splice]
  rw [List.take_append, List.take_of_length_le hle, List.drop_append, List.drop_of_length_le hle,
    List.take_append_of_le_length (by omega), List.drop_append_of_le_length (by omega)]
  simp

/-- The cached leaf holds the elements of `xs` that its bounds name, `xs` starting at `off`. -/
def InRange {L V : Type} (valid : L → Prop) (lvals : L → List V) (xs : List V) (off : Nat)
    (c : Cached L) : Prop :=
  valid c.leaf ∧ ∃ a b, xs = a ++ (lvals c.leaf ++ b) ∧ c.first = off + a.length ∧
    c.last = c.first + (lvals c.leaf).length

theorem InRange.append {L V : Type} {valid : L → Prop} {lvals : L → List V} {xs : List V} {off : Nat}
    {c : Cached L} (pre post : List V) (h : InRange valid lvals xs (pre.length + off) c) :
    InRange valid lvals (pre ++ (xs ++ post)) off c := by
  obtain ⟨hvalid, a, b, hxs, hfirst, hlast⟩ := h
  refine ⟨hvalid, pre ++ a, b ++ post, ?_, ?_, hlast⟩
  · rw [hxs]
    simp
  · rw [hfirst, List.length_append]
    omega

/-- **The contract of `bptree_insert`.**  `atEnd` says that the elements were added at the end, `was`
that the node was compact before, `before` is its node size before. -/
structure Outcome {L C V : Type} (valid : L → Prop) (lvals : L → List V) (full : Nat) (ok : C → Prop)
    (compact : C → Bool) (size : C → Nat) (vals : C → List V) (xs : List V) (off before : Nat)
    (atEnd was : Bool) (r : Inserted L C) : Prop where
  node_ok : ok r.node
  nonempty : vals r.node ≠ []
  kept : r.split = none → vals r.node = xs
  size_le : r.split = none → before ≤ size r.node
  split : ∀ sp, r.split = some sp → ok sp.sibling ∧ vals sp.sibling ≠ [] ∧
    vals r.node ++ vals sp.sibling = xs ∧ sp.splitOffset = (vals r.node).length ∧
    sp.splitSize = xs.length
  node_compact : atEnd = true → compact r.node = was
  complete : atEnd = true → was = true → ∀ sp, r.split = some sp →
    compact sp.sibling = true ∧ (vals r.node).length = full
  cache : ∀ c, r.cache = some c → InRange valid lvals xs off c

/-! ## One level -/

namespace Inner

section Level

variable {C V : Type} {maxSize full : Nat} {ok : C → Prop} {compact : C → Bool} {vals : C → List V}

/-- The invariant of a node over what its children satisfy. -/
def Laid (maxSize full : Nat) (ok : C → Prop) (compact : C → Bool) (vals : C → List V)
    (n : Inner C) : Prop :=
  WellLaid maxSize full ok compact vals n.form.layout n.children n.treeSize

variable {n : Inner C} {lay : Layout} {cs pre post : List C} {c c' : C} {sz k : Nat}

theorem Laid.values_ne_nil (h : n.Laid maxSize full ok compact vals) : n.children.flatMap vals ≠ [] := by
  have hpos := WellLaid.size_pos h
  rw [span_len] at hpos
  exact List.length_pos_iff.mp hpos

theorem Holds.laid (h : n.Holds lay cs sz) (hw : WellLaid maxSize full ok compact vals lay cs sz) :
    n.Laid maxSize full ok compact vals := by
  rw [Laid, h.layout, h.children, h.treeSize]
  exact hw

theorem Layout.map_isCompact (lay : Layout) (f : List Nat → List Nat) :
    (lay.map f).isCompact = lay.isCompact := by
  cases lay <;> rfl

theorem Layout.map_map (lay : Layout) (f g : List Nat → List Nat) :
    (lay.map f).map g = lay.map (fun os => g (f os)) := by
  cases lay <;> rfl

/-- What is known when a child was split: `c` has become `c'` and the new `s`, which together hold
`k` elements more; in a node in compact form the child was appended to and is complete. -/
structure ChildSplit (full : Nat) (ok : C → Prop) (compact : C → Bool) (vals : C → List V)
    (wasCompact : Bool) (post : List C) (c c' : C) (sp : Split C) (k : Nat) : Prop where
  left_ok : ok c'
  right_ok : ok sp.sibling
  left_nonempty : vals c' ≠ []
  right_nonempty : vals sp.sibling ≠ []
  offset_eq : sp.splitOffset = len vals c'
  size_eq : sp.splitSize = len vals c' + len vals sp.sibling
  grown : len vals c' + len vals sp.sibling = len vals c + k
  single : post ≠ [] → k = 1
  compact_form : wasCompact = true → post = [] ∧ compact c' = true ∧ len vals c' = full ∧
    compact sp.sibling = true ∧ len vals sp.sibling ≤ full

section Splits

variable {sp : Split C}
  (hw : WellLaid maxSize full ok compact vals lay (pre ++ c :: post) sz)
  (hn : n.Holds lay (pre ++ c' :: post) sz)
  (hs : ChildSplit full ok compact vals lay.isCompact post c c' sp k)

include hw hn hs

theorem holds_insertWithRoom (hroom : (pre ++ c' :: post).length < maxSize) :
    Yields (n.insertWithRoom pre.length sp k) (fun n' => n'.Laid maxSize full ok compact vals ∧
      n'.children = pre ++ c' :: sp.sibling :: post ∧ n'.form.isCompact = lay.isCompact) := by
  unfold insertWithRoom
  dsimp only
  rw [hn.childOffset_eq, hw.located.offset, hs.offset_eq]
  refine (holds_setTreeSize hn _).bind fun n₁ h₁ => ?_
  refine (holds_setOffsets h₁ _).bind fun n₂ h₂ => ?_
  refine (holds_adjustOffsets h₂ _ _).bind fun n₃ h₃ => ?_
  refine (holds_touch h₃).bind fun n₄ h₄ => Yields.pure ?_
  have hsib := hw.insertSibling (by simpa using hroom) hs.left_ok hs.right_ok hs.left_nonempty
    hs.right_nonempty hs.grown fun hc => by
      obtain ⟨hlast, hc', hfull, hcs, hle⟩ := hs.compact_form hc
      exact ⟨⟨hlast, hc', hfull.le⟩, hfull, hcs, hle⟩
  have hchildren : n₄.children.insertIdx (pre.length + 1) sp.sibling =
      pre ++ c' :: sp.sibling :: post := by
    have hcut := insertIdx_mid (pre ++ [c']) sp.sibling post
    rw [List.length_append, List.length_singleton] at hcut
    simpa [h₄.children] using hcut
  have hold : { n₄ with children := n₄.children.insertIdx (pre.length + 1) sp.sibling }.Holds
      (lay.map (fun os => adjustFrom (· + k) (pre.length + 1)
        (os.insertIdx pre.length (span (len vals) pre + len vals c'))))
      (pre ++ c' :: sp.sibling :: post) (sz + k) :=
    ⟨by rw [← Layout.map_map]; exact h₄.layout, hchildren, by rw [← hn.treeSize]; exact h₄.treeSize⟩
  exact ⟨hold.laid hsib, hchildren, by rw [hold.isCompact_eq, Layout.map_isCompact]⟩

/-- What a full node is split into: two nodes with the children between them. -/
structure Halves (maxSize full : Nat) (ok : C → Prop) (compact : C → Bool) (vals : C → List V)
    (all : List C) (wasCompact : Bool) (p : Inner C × Split (Inner C)) : Prop where
  left : p.1.Laid maxSize full ok compact vals
  right : p.2.sibling.Laid maxSize full ok compact vals
  children_eq : p.1.children ++ p.2.sibling.children = all
  offset_eq : p.2.splitOffset = span (len vals) p.1.children
  size_eq : p.2.splitSize = span (len vals) all
  form_eq : p.1.form.isCompact = wasCompact
  complete : wasCompact = true → p.2.sibling.form.isCompact = true ∧
    span (len vals) p.1.children = maxSize * full

omit hn in
theorem span_of_complete (hpost : post = []) (hcount : pre.length + 1 = maxSize)
    (hc : lay.isCompact = true) : span (len vals) pre + len vals c' = maxSize * full := by
  obtain ⟨-, -, hfull, -, -⟩ := hs.compact_form hc
  subst hpost
  cases lay with
  | general offsets => cases hc
  | compact e =>
    have hpre : span (len vals) pre = pre.length * full := by
      rw [← (hw.compact_form e rfl).1]
      exact span_of_equal _ (dropLast_concat_equal hw.located.2.1)
    rw [hpre, hfull, ← hcount, Nat.succ_mul]

theorem halves_splitBehindLast {sib : Inner C} (hsib : sib.Holds (lay.map (fun _ => [])) [] 0)
    (hpost : post = []) (hcount : pre.length + 1 = maxSize) :
    Yields (n.splitBehindLast sib pre.length sp)
      (Halves maxSize full ok compact vals (pre ++ c' :: sp.sibling :: post) lay.isCompact) := by
  have hcomplete := span_of_complete hw hs hpost hcount
  subst hpost
  unfold splitBehindLast
  dsimp only
  rw [hn.childOffset_eq, hw.located.offset, hs.offset_eq]
  refine (holds_addBpNodeRef hsib sp.sibling 0).bind fun sib₁ hsib₁ => ?_
  refine (holds_setTreeSize hn _).bind fun n₁ h₁ => ?_
  refine (holds_setTreeSize hsib₁ _).bind fun sib₂ hsib₂ => Yields.pure ?_
  have hkeep := hw.keepLast hs.left_ok hs.left_nonempty
    fun hc => ⟨(hs.compact_form hc).2.1, (hs.compact_form hc).2.2.1.le⟩
  have hone : WellLaid maxSize full ok compact vals
      ((lay.map (fun _ => [])).map (withOffset 0)) [sp.sibling] (len vals sp.sibling) := by
    refine wellLaid_singleton (by omega) hs.right_ok hs.right_nonempty ?_
    cases hlay : lay with
    | general offsets => exact .inl rfl
    | compact e =>
      obtain ⟨-, -, -, hcs, hle⟩ := hs.compact_form (by rw [hlay]; rfl)
      exact .inr ⟨by rw [← (hw.compact_form e hlay).1]; rfl, hcs, hle⟩
  rw [hs.size_eq, Nat.add_sub_cancel_left] at hsib₂
  have hspan : span (len vals) n₁.children = span (len vals) pre + len vals c' := by
    rw [h₁.children]
    simp
  refine ⟨h₁.laid hkeep, hsib₂.laid hone, ?_, hspan.symm, ?_, h₁.isCompact_eq, fun hc => ⟨?_, ?_⟩⟩
  · rw [h₁.children, hsib₂.children]
    simp
  · rw [hs.size_eq]
    simp
  · rw [hsib₂.isCompact_eq, Layout.map_isCompact, Layout.map_isCompact]
    exact hc
  · rw [hspan]
    exact hcomplete hc

theorem halves_splitBefore {sib : Inner C} (hsib : sib.Holds (lay.map (fun _ => [])) [] 0)
    (hpost : post ≠ []) : Yields (n.splitBefore sib pre.length sp)
      (Halves maxSize full ok compact vals (pre ++ c' :: sp.sibling :: post) lay.isCompact) := by
  have hsize := hs.size_eq
  have hgrown := hs.grown
  have hk := hs.single hpost
  cases lay with
  | compact e => exact absurd (hs.compact_form rfl).1 hpost
  | general offsets =>
    unfold splitBefore
    dsimp only
    have hadj : ((span (len vals) pre + sp.splitSize : Nat) : Int) - 1 =
        (span (len vals) pre + len vals c : Nat) := by omega
    rw [hn.childOffset_eq, hw.located.offset, hs.offset_eq, hadj]
    refine (holds_move hn hsib _ _).bind fun p hp => ?_
    obtain ⟨hp₁, hp₂⟩ := hp
    refine (holds_addBpNodeRef hp₁ sp.sibling _).bind fun n₁ h₁ => ?_
    refine (holds_setTreeSize h₁ _).bind fun n₂ h₂ => ?_
    refine (holds_setTreeSize hp₂ _).bind fun sib₂ hsib₂ => Yields.pure ?_
    -- What stays, and what has moved.
    rw [movedChildren_congr (.general offsets) pre post c c'] at hsib₂
    have hfst : (movedChildren (.general offsets) (pre ++ c :: post) (pre.length + 1)
        ((span (len vals) pre + len vals c : Nat) : Int)).map Prod.fst = post := by
      have hcut : pre ++ c :: post = (pre ++ [c]) ++ post := by simp
      have hloc := hw.located
      rw [hcut] at hloc
      have hmap := map_fst_movedChildren hloc ((span (len vals) pre + len vals c : Nat) : Int)
      rw [List.length_append, List.length_singleton, ← hcut] at hmap
      exact hmap
    have htake : (pre ++ c' :: post).take (pre.length + 1) = pre ++ [c'] := by
      rw [List.append_cons, List.take_left' (by simp)]
    rw [hfst, List.nil_append] at hsib₂
    rw [if_pos (Nat.succ_pos _), Nat.add_sub_cancel, htake] at h₂
    have htotal : n.treeSize + 1 = span (len vals) (pre ++ c' :: sp.sibling :: post) := by
      rw [hn.treeSize, hw.size_eq]
      simp only [span_append, span_cons]
      omega
    have hrest : n.treeSize + 1 - (span (len vals) pre + sp.splitSize) = span (len vals) post := by
      rw [htotal, hsize]
      simp only [span_append, span_cons]
      omega
    rw [hrest] at hsib₂
    have hchildren : n₂.children = pre ++ [c', sp.sibling] := by
      rw [h₂.children]
      simp
    have hfirst : n₂.Holds (.general (withOffset (span (len vals) pre + len vals c')
        (offsets.take pre.length))) (pre ++ [c', sp.sibling])
        (span (len vals) pre + (len vals c' + len vals sp.sibling)) :=
      ⟨h₂.layout, hchildren, by rw [h₂.treeSize, hsize]⟩
    refine ⟨hfirst.laid (hw.keepFirst hpost hs.left_ok hs.right_ok hs.left_nonempty hs.right_nonempty),
      hsib₂.laid (hw.moveRest hpost), ?_, ?_, htotal, hfirst.isCompact_eq, fun hc => ?_⟩
    · rw [hchildren, hsib₂.children]
      simp
    · rw [hchildren, hsize]
      simp
    · cases hc

/-- **`insert_bp_node`**: the children with the new one among them, in one node or in two. -/
theorem yields_insertBpNode : Yields (n.insertBpNode maxSize pre.length sp k) (fun p =>
    (p.2 = none ∧ p.1.Laid maxSize full ok compact vals ∧
      p.1.children = pre ++ c' :: sp.sibling :: post ∧ p.1.form.isCompact = lay.isCompact) ∨
    ∃ split, p.2 = some split ∧ Halves maxSize full ok compact vals
      (pre ++ c' :: sp.sibling :: post) lay.isCompact (p.1, split)) := by
  unfold insertBpNode
  rw [hn.children]
  split
  · rename_i hroom
    refine (holds_insertWithRoom hw hn hs hroom).bind fun n' h' => Yields.pure ?_
    exact .inl ⟨rfl, h'⟩
  · rename_i hfull
    have hle := hw.length_le
    simp only [List.length_append, List.length_cons] at hle hfull ⊢
    refine (holds_newSibling hn).bind fun sib hsib => ?_
    split
    · rename_i hlast
      have hpost : post = [] := List.length_eq_zero_iff.mp (by omega)
      refine (halves_splitBehindLast hw hn hs hsib hpost (by omega)).bind fun p hp => Yields.pure ?_
      exact .inr ⟨p.2, rfl, hp⟩
    · rename_i hlast
      have hpost : post ≠ [] := by
        rintro rfl
        simp at hlast
      refine (halves_splitBefore hw hn hs hsib hpost).bind fun p hp => Yields.pure ?_
      exact .inr ⟨p.2, rfl, hp⟩

end Splits

theorem yields_prepareInsert (h : n.Holds lay cs sz)
    (hw : WellLaid maxSize full ok compact vals lay cs sz) (ndx : Option Nat) :
    Yields (n.prepareInsert ndx) (fun n' => ∃ lay', n'.Holds lay' cs sz ∧
      WellLaid maxSize full ok compact vals lay' cs sz ∧
      (lay'.isCompact = true → ndx = none) ∧ (ndx = none → lay' = lay)) := by
  cases ndx with
  | none => exact Yields.pure ⟨lay, h, hw, fun _ => rfl, fun _ => rfl⟩
  | some i =>
    refine (holds_ensureOffsets h).mono fun n' h' => ⟨_, h', hw.ensured, fun hc => ?_, fun hi => ?_⟩
    · obtain ⟨offsets, hgen⟩ := lay.ensured_eq cs.length
      rw [hgen] at hc
      cases hc
    · cases hi

theorem exists_insertIndex (h : n.Holds lay cs sz)
    (hw : WellLaid maxSize full ok compact vals lay cs sz) {ndx : Option Nat}
    (hndx : ∀ i, ndx = some i → i < (cs.flatMap vals).length) (vs : List V) :
    ∃ pre c post, cs = pre ++ c :: post ∧ n.insertIndex ndx = pre.length ∧
      n.childOffset pre.length = (pre.flatMap vals).length ∧ (ndx = none → post = []) ∧
      (∀ i, ndx.map (· - (pre.flatMap vals).length) = some i → i < (vals c).length) ∧
      splice ndx vs (cs.flatMap vals) = pre.flatMap vals ++
        (splice (ndx.map (· - (pre.flatMap vals).length)) vs (vals c) ++ post.flatMap vals) := by
  have hoffset : ∀ pre c post, cs = pre ++ c :: post →
      n.childOffset pre.length = (pre.flatMap vals).length := by
    rintro pre c post rfl
    rw [h.childOffset_eq, hw.located.offset, span_len]
  cases ndx with
  | none =>
    obtain ⟨pre, c, rfl⟩ := (List.eq_nil_or_concat' cs).resolve_left hw.nonempty
    refine ⟨pre, c, [], rfl, ?_, hoffset pre c [] rfl, fun _ => rfl, fun i hi => ?_, ?_⟩
    · simp [insertIndex, h.children]
    · cases hi
    · simp [splice]
  | some i =>
    have hi : i < span (len vals) cs := by rw [span_len]; exact hndx i rfl
    obtain ⟨pre, c, post, hcs, hle, hlt, hindex⟩ := hw.located.lookup hw.child_pos hi
    rw [span_len] at hle hlt
    refine ⟨pre, c, post, hcs, ?_, hoffset pre c post hcs, fun hn => ?_, fun j hj => ?_, ?_⟩
    · rw [← hindex, ← h.childIndex_eq]
      rfl
    · cases hn
    · cases hj
      exact Nat.sub_lt_left_of_lt_add hle hlt
    · rw [hcs, List.flatMap_append, List.flatMap_cons]
      exact splice_mid vs _ _ _ hle hlt.le

/-- **Insertion at an inner node.**  If the insertion into a child meets the contract, so does the
insertion into the node. -/
theorem outcome_inner {L : Type} {valid : L → Prop} {lvals : L → List V} (ref : C → Ref) {size : C → Nat}
    {insertChild : C → Option Nat → Nat → Prog (Inserted L C)} {vs : List V}
    (hfull : ∀ c, ok c → compact c = true → (vals c).length ≤ full)
    (hn : n.Laid maxSize full ok compact vals) {ndx : Option Nat} (off : Nat)
    (hinsert : ∀ c ndx' off, ok c → vals c ≠ [] →
      (∀ i, ndx' = some i → i < (vals c).length ∧ vs.length = 1) →
      ndx'.isNone = ndx.isNone → (ndx' = none → n.children.getLast? = some c) →
      Yields (insertChild c ndx' off)
        (Outcome valid lvals full ok compact size vals (splice ndx' vs (vals c)) off (size c) ndx'.isNone
          (compact c)))
    (hndx : ∀ i, ndx = some i → i < (n.children.flatMap vals).length ∧ vs.length = 1) :
    Yields (n.bptreeInsert maxSize ref vs.length insertChild ndx off)
      (Outcome valid lvals (maxSize * full) (·.Laid maxSize full ok compact vals) (·.form.isCompact)
        (·.children.length) (·.children.flatMap vals) (splice ndx vs (n.children.flatMap vals)) off
        n.children.length ndx.isNone n.form.isCompact) := by
  refine (yields_prepareInsert n.holds_self hn ndx).bind ?_
  rintro n₁ ⟨lay, h₁, hw, hcompact, hlay⟩
  obtain ⟨pre, c, post, hcs, hindex, hoffset, hlast, hin, hsplice⟩ :=
    exists_insertIndex h₁ hw (fun i hi => (hndx i hi).1) vs
  rw [hsplice]
  rw [hcs] at h₁ hw
  dsimp only
  rw [hindex, hoffset]
  have hc : n₁.children[pre.length]? = some c := by rw [h₁.children, getElem?_mid]
  refine (yields_child hc).bind ?_
  rintro _ rfl
  have hone : ∀ i, ndx.map (· - (pre.flatMap vals).length) = some i →
      i < (vals c).length ∧ vs.length = 1 := by
    intro i hi
    obtain ⟨j, hj, -⟩ := Option.map_eq_some_iff.mp hi
    exact ⟨hin i hi, (hndx j hj).2⟩
  have hend : ndx.map (· - (pre.flatMap vals).length) = none → n.children.getLast? = some c := by
    intro hnone
    rw [hcs, hlast (Option.map_eq_none_iff.mp hnone), List.getLast?_concat]
  refine (hinsert _ _ _ (hw.child_ok _ (by simp)) (hw.child_nonempty _ (by simp)) hone Option.isNone_map hend).bind
    fun r hr => ?_
  refine (holds_setChild ref h₁ (by simp) r.node).bind fun n₂ h₂ => ?_
  rw [set_mid] at h₂
  -- A node still in compact form is appended to, and so is its last child.
  have happended : lay.isCompact = true → post = [] ∧
      (ndx.map (· - (pre.flatMap vals).length)).isNone = true ∧ compact c = true := by
    intro hcomp
    obtain ⟨e, he⟩ : ∃ e, lay = .compact e := by
      cases lay with
      | compact e => exact ⟨e, rfl⟩
      | general offsets => cases hcomp
    have hnone := hcompact hcomp
    exact ⟨hlast hnone, by rw [hnone]; rfl, (hw.compact_form e he).2 c (by simp)⟩
  have hwas : ndx.isNone = true → lay.isCompact = n.form.isCompact := by
    intro hnone
    rw [hlay (Option.isNone_iff_eq_none.mp hnone), n.holds_self.isCompact_eq]
  have hlenTotal : (splice (ndx.map (· - (pre.flatMap vals).length)) vs (vals c)).length =
      (vals c).length + vs.length := splice_length _ _ _
  cases hsplit : r.split with
  | none =>
    refine (holds_setTreeSize h₂ _).bind fun n₃ h₃ => (holds_adjustOffsets h₃ _ _).bind fun n₄ h₄ => ?_
    have hvals := hr.kept hsplit
    have hwell := hw.resize (k := vs.length) hr.node_ok hr.nonempty (by rw [len, hvals, hlenTotal])
      fun hcomp => by
        obtain ⟨hpost, hend, hcc⟩ := happended hcomp
        have hcr := (hr.node_compact hend).trans hcc
        exact ⟨hpost, hcr, hfull _ hr.node_ok hcr⟩
    rw [h₂.treeSize] at h₄
    refine Yields.pure ⟨h₄.laid hwell, ?_, fun _ => ?_, fun _ => ?_, fun sp hsp => ?_, fun hend => ?_,
      fun _ _ sp hsp => ?_, fun cache hcache => ?_⟩
    · rw [h₄.children]
      simp [hr.nonempty]
    · rw [h₄.children, ← hvals]
      simp
    · rw [h₄.children, hcs]
      simp
    · cases hsp
    · rw [h₄.isCompact_eq, Layout.map_isCompact]
      exact hwas hend
    · cases hsp
    · exact (hr.cache cache hcache).append _ _
  | some sp =>
    obtain ⟨hoks, hnes, hjoin, hsoff, hssize⟩ := hr.split sp hsplit
    have hsum : len vals r.node + len vals sp.sibling = len vals c + vs.length := by
      rw [← hlenTotal, ← hjoin, List.length_append]
    have hchild : ChildSplit full ok compact vals lay.isCompact post c r.node sp vs.length := by
      refine ⟨hr.node_ok, hoks, hr.nonempty, hnes, hsoff, ?_, hsum, fun hpost => ?_, fun hcomp => ?_⟩
      · rw [hssize, ← hjoin, List.length_append]
      · cases ndx with
        | none => exact absurd (hlast rfl) hpost
        | some i => exact (hndx i rfl).2
      · obtain ⟨hpost, hend, hcc⟩ := happended hcomp
        obtain ⟨hcsib, hlenr⟩ := hr.complete hend hcc sp hsplit
        exact ⟨hpost, (hr.node_compact hend).trans hcc, hlenr, hcsib, hfull _ hoks hcsib⟩
    refine (yields_insertBpNode hw h₂ hchild).bind fun p hp => Yields.pure ?_
    obtain ⟨n₃, split⟩ := p
    have hall : (pre ++ r.node :: sp.sibling :: post).flatMap vals = pre.flatMap vals ++
        (splice (ndx.map (· - (pre.flatMap vals).length)) vs (vals c) ++ post.flatMap vals) := by
      rw [← hjoin]
      simp
    have hcached : ∀ cache, r.cache = some cache → _ := fun cache hcache =>
      (hr.cache cache hcache).append (pre.flatMap vals) (post.flatMap vals)
    rcases hp with ⟨rfl, hlaid, hchildren, hform⟩ | ⟨sp', rfl, hp⟩
    · refine ⟨hlaid, hlaid.values_ne_nil, fun _ => ?_, fun _ => ?_, fun sp' hsp => ?_,
        fun hend => hform.trans (hwas hend), fun _ _ sp' hsp => ?_, hcached⟩
      · rw [← hall, ← hchildren]
      · rw [hchildren, hcs]
        simp
      · cases hsp
      · cases hsp
    · refine ⟨hp.left, hp.left.values_ne_nil, fun hnone => ?_, fun hnone => ?_, fun sp'' hsp => ?_,
        fun hend => hp.form_eq.trans (hwas hend), fun hend hcomp sp'' hsp => ?_, hcached⟩
      · cases hnone
      · cases hnone
      · cases hsp
        refine ⟨hp.right, hp.right.values_ne_nil, ?_, ?_, ?_⟩
        · rw [← List.flatMap_append, hp.children_eq, hall]
        · rw [hp.offset_eq, span_len]
        · rw [hp.size_eq, span_len, hall]
      · cases hsp
        obtain ⟨hcsib, hspan⟩ := hp.complete ((hwas hend).trans hcomp)
        rw [span_len] at hspan
        exact ⟨hcsib, hspan⟩

end Level

end Inner

/-! ## Leaves, and all levels -/

section Levels

variable {V : Type} {T : LeafClass V} (L : ListLike T) {maxSize : Nat}

/-- What `insert(n, value)` passes down. -/
def insertValue (T : LeafClass V) (value : V) : InsertFunc T.Leaf :=
  .call 1 (fun l ndx => T.insert l ndx value)

theorem splice_some_singleton {v : V} {xs : List V} {i : Nat} (hi : i ≤ xs.length) :
    splice (some i) [v] xs = xs.insertIdx i v := by
  have hmid := insertIdx_mid (xs.take i) v (xs.drop i)
  rw [List.length_take_of_le hi, List.take_append_drop] at hmid
  exact hmid.symm

theorem splice_none_singleton (v : V) (xs : List V) :
    splice none [v] xs = xs.insertIdx xs.length v := by
  have hmid := insertIdx_mid xs v []
  rw [List.append_nil] at hmid
  exact hmid.symm

/-- The contract of `BPlusTreeLeaf::bptree_insert`: the last component is what the end of the cached
leaf moves by. -/
structure LeafOutcome (maxSize : Nat) (xs : List V) (atEnd : Bool) (l : T.Leaf)
    (r : T.Leaf × Option (Split T.Leaf) × Option Nat) : Prop where
  ok : WellFormed L maxSize 0 r.1
  nonempty : L.values r.1 ≠ []
  kept : r.2.1 = none → L.values r.1 = xs
  split : ∀ sp, r.2.1 = some sp → WellFormed L maxSize 0 sp.sibling ∧ L.values sp.sibling ≠ [] ∧
    L.values r.1 ++ L.values sp.sibling = xs ∧ sp.splitOffset = (L.values r.1).length ∧
    sp.splitSize = xs.length
  full : atEnd = true → ∀ sp, r.2.1 = some sp → (L.values r.1).length = maxSize
  grown : ∀ d, r.2.2 = some d → (L.values r.1).length = (L.values l).length + d

/-- `func` adds the elements `vs` to a leaf. -/
def Adds (maxSize : Nat) (func : InsertFunc T.Leaf) (vs : List V) : Prop :=
  func.count = vs.length ∧ ∀ l ndx, WellFormed L maxSize 0 l →
    (∀ i, ndx = some i → i < (L.values l).length ∧ vs.length = 1) →
    Yields (leafInsert T maxSize func l ndx)
      (LeafOutcome L maxSize (splice ndx vs (L.values l)) ndx.isNone l)

theorem adds_insertValue (hmax : 1 ≤ maxSize) (v : V) : Adds L maxSize (insertValue T v) [v] := by
  refine ⟨rfl, fun l ndx hl hndx => ?_⟩
  obtain ⟨hvalid, hle⟩ := hl
  have hsize := L.size_eq l hvalid
  -- The index at which the leaf inserts, and the list this gives.
  obtain ⟨i, hi, hmin, hxs, hend⟩ : ∃ i, i ≤ (L.values l).length ∧
      min (ndx.getD (T.size l)) (T.size l) = i ∧ splice ndx [v] (L.values l) = (L.values l).insertIdx i v ∧
      (ndx = none → i = (L.values l).length) := by
    rw [hsize]
    cases ndx with
    | none => exact ⟨_, le_rfl, by simp, splice_none_singleton v _, fun _ => rfl⟩
    | some i =>
      have hlt := (hndx i rfl).1
      exact ⟨i, hlt.le, by simp [hlt.le], splice_some_singleton hlt.le, fun h => by cases h⟩
  have hlen : ((L.values l).insertIdx i v).length = (L.values l).length + 1 :=
    List.length_insertIdx_of_le_length hi v
  unfold leafInsert insertValue
  dsimp only
  rw [hmin, hxs]
  split
  · -- There is room in the leaf.
    rename_i hroom
    refine (L.insert l i v hvalid hi).bind fun l' hl' => ?_
    obtain ⟨hvalid', hvals⟩ := hl'
    have hsize' : T.size l' = T.size l + 1 := by rw [L.size_eq l' hvalid', hvals, hlen, hsize]
    rw [if_pos ⟨hsize', by omega⟩]
    refine Yields.pure ⟨⟨hvalid', by rw [hvals, hlen]; omega⟩, ?_, fun _ => hvals, fun sp hsp => ?_,
      fun _ sp hsp => ?_, fun d hd => ?_⟩
    · rw [← List.length_pos_iff, hvals, hlen]
      omega
    · cases hsp
    · cases hsp
    · cases hd
      rw [hvals, hlen]
  · -- The leaf is full.
    rename_i hfull
    have hfullLen : (L.values l).length = maxSize := by omega
    rw [if_pos rfl]
    refine L.create.bind fun new hnew => ?_
    obtain ⟨hvalidNew, hempty⟩ := hnew
    split
    · rename_i hlast
      rw [hsize] at hlast
      refine (L.insert new 0 v hvalidNew (Nat.zero_le _)).bind fun new' hnew' => Yields.pure ?_
      obtain ⟨hvalidNew', hvalsNew⟩ := hnew'
      rw [hempty, List.insertIdx_zero] at hvalsNew
      refine ⟨⟨hvalid, hle⟩, ?_, fun h => ?_, fun sp hsp => ?_, fun _ sp hsp => ?_, fun d hd => ?_⟩
      · rw [← List.length_pos_iff, hfullLen]
        omega
      · cases h
      · cases hsp
        refine ⟨⟨hvalidNew', by rw [hvalsNew]; simpa using hmax⟩, by simp [hvalsNew], ?_, hlast, ?_⟩
        · rw [hvalsNew, hlast, ← splice_none_singleton]
          rfl
        · rw [hlen, hsize]
      · exact hfullLen
      · cases hd
        rfl
    · rename_i hlast
      rw [hsize] at hlast
      refine (L.move l new i hvalid hvalidNew hi).bind fun p hp => ?_
      obtain ⟨hvalid₁, hvals₁, hvalid₂, hvals₂⟩ := hp
      have hlen₁ : (L.values p.1).length = i := by rw [hvals₁, List.length_take_of_le hi]
      refine (L.insert p.1 i v hvalid₁ hlen₁.ge).bind fun l' hl' => Yields.pure ?_
      obtain ⟨hvalid', hvals'⟩ := hl'
      have hleft : L.values l' = (L.values l).take i ++ [v] := by
        have hend' := splice_none_singleton v (L.values p.1)
        rw [hlen₁, ← hvals', hvals₁] at hend'
        exact hend'.symm
      rw [hempty, List.nil_append] at hvals₂
      have hlenLeft : (L.values l').length = i + 1 := by
        rw [hleft, List.length_append, List.length_take_of_le hi, List.length_singleton]
      refine ⟨⟨hvalid', by rw [hlenLeft]; omega⟩, by simp [hleft], fun h => ?_, fun sp hsp => ?_, fun happ sp hsp => ?_,
        fun d hd => ?_⟩
      · cases h
      · cases hsp
        refine ⟨⟨hvalid₂, ?_⟩, ?_, ?_, hlenLeft.symm, ?_⟩
        · rw [hvals₂, List.length_drop]
          omega
        · rw [← List.length_pos_iff, hvals₂, List.length_drop]
          omega
        · rw [hleft, hvals₂, ← splice_some_singleton hi]
          simp [splice]
        · rw [hlen, hsize]
      · exact absurd (hend (Option.isNone_iff_eq_none.mp happ)) hlast
      · cases hd

theorem outcome_leaf {func : InsertFunc T.Leaf} {vs : List V} {l : T.Leaf} {ndx : Option Nat} (off : Nat)
    (hl : WellFormed L maxSize 0 l) (hinsert : Yields (leafInsert T maxSize func l ndx)
      (LeafOutcome L maxSize (splice ndx vs (L.values l)) ndx.isNone l)) :
    Yields (bptreeInsert T maxSize func 0 l ndx off)
      (Outcome L.Valid L.values (maxSize ^ (0 + 1)) (WellFormed L maxSize 0) (isCompact T 0) (nodeSize T 0)
        (nodeValues L 0) (splice ndx vs (L.values l)) off (nodeSize T 0 l) ndx.isNone (isCompact T 0 l)) := by
  refine hinsert.bind fun r hr => Yields.pure ?_
  refine ⟨hr.ok, hr.nonempty, hr.kept, fun hkept => ?_, hr.split, fun _ => rfl,
    fun hend _ sp hsp => ⟨rfl, ?_⟩, fun c hc => ?_⟩
  · change T.size l ≤ T.size r.1
    rw [L.size_eq l hl.1, L.size_eq r.1 hr.ok.1, hr.kept hkept, splice_length]
    exact Nat.le_add_right _ _
  · rw [Nat.zero_add, pow_one]
    exact hr.full hend sp hsp
  · obtain ⟨d, hd, rfl⟩ := Option.map_eq_some_iff.mp hc
    have hlast : off + T.size l + d = off + (L.values r.1).length := by
      rw [hr.grown d hd, L.size_eq l hl.1]
      omega
    cases hsplit : r.2.1 with
    | none =>
      have hkept : splice ndx vs (L.values l) = [] ++ (L.values r.1 ++ []) := by
        rw [← hr.kept hsplit, List.nil_append, List.append_nil]
      exact ⟨hr.ok.1, [], [], hkept, rfl, hlast⟩
    | some sp =>
      obtain ⟨-, -, hjoin, -, -⟩ := hr.split sp hsplit
      exact ⟨hr.ok.1, [], L.values sp.sibling, hjoin.symm, rfl, hlast⟩

/-- **Insertion at any node** meets the contract. -/
theorem outcome_bptreeInsert {func : InsertFunc T.Leaf} {vs : List V} (hfunc : Adds L maxSize func vs) :
    ∀ (h : Nat) (n : Node T.Leaf h) (ndx : Option Nat) (off : Nat), WellFormed L maxSize h n →
      nodeValues L h n ≠ [] →
      (∀ i, ndx = some i → i < (nodeValues L h n).length ∧ vs.length = 1) →
      Yields (bptreeInsert T maxSize func h n ndx off)
        (Outcome L.Valid L.values (maxSize ^ (h + 1)) (WellFormed L maxSize h) (isCompact T h)
          (nodeSize T h) (nodeValues L h) (splice ndx vs (nodeValues L h n)) off (nodeSize T h n)
          ndx.isNone (isCompact T h n))
  | 0, l, ndx, off, hl, _, hndx => outcome_leaf L off hl (hfunc.2 l ndx hl hndx)
  | h + 1, n, ndx, off, hn, _, hndx => by
    have hstep := Inner.outcome_inner (nodeRef T h) (length_le_of_isCompact L maxSize h) hn off
      (fun c ndx' off' hc hne hndx' _ _ => outcome_bptreeInsert hfunc h c ndx' off' hc hne hndx') hndx
    rw [← hfunc.1, ← pow_succ'] at hstep
    exact hstep

end Levels

end Llbt.BPlusTree
