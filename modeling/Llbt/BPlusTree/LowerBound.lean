import Llbt.BPlusTree.Refine
import Llbt.Lib.Search

/-!
# `lower_bound`

The search goes down the tree without the leaf cache.  In an inner node it looks at the first element of each child but
the first and takes the child before the first one that does not begin below the value; in the leaf it searches the
elements.

It only reads, so it needs less of a tree than the operations do: `Searchable` asks for readable leaves, children that
are not empty, and offsets or elements per child that agree with the subtrees.  Every leaf array class is covered.

* `Tree.Inv.searchable` — every well-formed tree is searchable;
* `lowerBound_eq_countP` — over sorted elements `lower_bound` is the number of elements below the value.
-/

set_option autoImplicit false

namespace Llbt.BPlusTree

open Segments

section Model

variable {V : Type} (T : LeafClass V) (lt : V → V → Bool)

def firstLeaf : (h : Nat) → Node T.Leaf h → Option T.Leaf
  | 0, l => some l
  | h + 1, n => n.children.head?.bind (firstLeaf h)

def subtreeFirstValue (h : Nat) (n : Node T.Leaf h) : Option V := (firstLeaf T h n).bind (T.get · 0)

/-- The descent of `lower_bound`; `base` is the index of the first element of the node. -/
def lowerBoundFrom (value : V) : (h : Nat) → Node T.Leaf h → (base : Nat) → Option Nat
  | 0, l, base =>
    (Search.bisect (fun mid => (T.get l mid).map (lt · value)) (T.size l) 0 (T.size l)).map (base + ·)
  | h + 1, n, base =>
    (Search.bisect (fun mid => (n.children[mid]?.bind (subtreeFirstValue T h)).map (lt · value))
      n.children.length 1 n.children.length).bind fun left =>
        n.children[left - 1]?.bind fun c => lowerBoundFrom value h c (base + n.childOffset (left - 1))

/-- `lower_bound`; `lt` is `operator<` of the element type. -/
def Tree.lowerBound (t : Tree T) (value : V) : Option Nat :=
  if t.size = 0 then some 0 else lowerBoundFrom T lt value t.height t.root 0

/-! ## What the search needs of a tree -/

/-- The elements of a leaf, as `get` returns them. -/
def leafValues (l : T.Leaf) : List V := (List.range (T.size l)).filterMap (T.get l)

/-- The elements of a subtree, as `get` returns them. -/
def readValues : (h : Nat) → Node T.Leaf h → List V
  | 0, l => leafValues T l
  | h + 1, n => n.children.flatMap (readValues h)

/-- A subtree that can be read, with every element where slot 0 of the inner nodes says. -/
def SearchableNode : (h : Nat) → Node T.Leaf h → Prop
  | 0, l => ∀ i, i < T.size l → (T.get l i).isSome = true
  | h + 1, n => n.children ≠ [] ∧ (∀ c ∈ n.children, SearchableNode h c ∧ readValues T h c ≠ []) ∧
      Located (len (readValues T h)) n.form.layout n.children

/-- A tree that holds the elements `xs` and can be searched. -/
structure Tree.Searchable (t : Tree T) (xs : List V) : Prop where
  size_eq : t.size = xs.length
  values_eq : readValues T t.height t.root = xs
  node : SearchableNode T t.height t.root

end Model

section Reading

variable {V : Type} {T : LeafClass V}

theorem filterMap_range_of_isSome (f : Nat → Option V) : ∀ {n : Nat}, (∀ i, i < n → (f i).isSome = true) →
    ((List.range n).filterMap f).length = n ∧ ∀ i, i < n → ((List.range n).filterMap f)[i]? = f i
  | 0, _ => ⟨rfl, fun i hi => absurd hi (Nat.not_lt_zero i)⟩
  | n + 1, h => by
    obtain ⟨hlen, hget⟩ := filterMap_range_of_isSome f fun i hi => h i (Nat.lt_succ_of_lt hi)
    obtain ⟨v, hv⟩ := Option.isSome_iff_exists.mp (h n (Nat.lt_succ_self n))
    have hcut : (List.range (n + 1)).filterMap f = (List.range n).filterMap f ++ [v] := by
      rw [List.range_succ, List.filterMap_append]
      simp [hv]
    rw [hcut]
    refine ⟨by rw [List.length_append, hlen]; rfl, fun i hi => ?_⟩
    rcases Nat.lt_succ_iff_lt_or_eq.mp hi with hi | rfl
    · rw [List.getElem?_append_left (by omega), hget i hi]
    · rw [List.getElem?_append_right (by omega), hlen, Nat.sub_self, hv]
      rfl

theorem leafValues_spec {l : T.Leaf} (h : SearchableNode T 0 l) :
    (leafValues T l).length = T.size l ∧ ∀ i, i < T.size l → (leafValues T l)[i]? = T.get l i :=
  filterMap_range_of_isSome (T.get l) h

/-- A leaf of which every element is read as the list has it. -/
theorem readable_of_get {l : T.Leaf} {vs : List V} (hsize : T.size l = vs.length)
    (hget : ∀ i v, vs[i]? = some v → T.get l i = some v) : SearchableNode T 0 l ∧ leafValues T l = vs := by
  have hread : ∀ i, i < T.size l → T.get l i = vs[i]? := by
    intro i hi
    have hlt : i < vs.length := by omega
    rw [List.getElem?_eq_getElem hlt]
    exact hget i _ (List.getElem?_eq_getElem hlt)
  have hnode : SearchableNode T 0 l := by
    intro i hi
    rw [hread i hi, List.getElem?_eq_getElem (by omega)]
    rfl
  obtain ⟨hlen, hvals⟩ := leafValues_spec hnode
  refine ⟨hnode, List.ext_getElem? fun i => ?_⟩
  by_cases hi : i < T.size l
  · rw [hvals i hi, hread i hi]
  · rw [List.getElem?_eq_none (by omega), List.getElem?_eq_none (by omega)]

theorem searchable_of_wellFormed (L : ListLike T) {maxSize : Nat} : ∀ (h : Nat) (n : Node T.Leaf h),
    WellFormed L maxSize h n → SearchableNode T h n ∧ readValues T h n = nodeValues L h n
  | 0, l, hl => readable_of_get (L.size_eq l hl.1) fun i v hv =>
      (L.get_eq l i hl.1 (List.getElem?_eq_some_iff.mp hv).1).trans hv
  | h + 1, n, hn => by
    have hchild : ∀ c ∈ n.children, SearchableNode T h c ∧ readValues T h c = nodeValues L h c :=
      fun c hc => searchable_of_wellFormed L h c (hn.child_ok c hc)
    have hvals : n.children.flatMap (readValues T h) = n.children.flatMap (nodeValues L h) :=
      List.flatMap_congr fun c hc => (hchild c hc).2
    refine ⟨⟨hn.nonempty, fun c hc => ⟨(hchild c hc).1, ?_⟩, ?_⟩, hvals⟩
    · rw [(hchild c hc).2]
      exact hn.child_nonempty c hc
    · exact hn.located.of_map_eq (List.map_congr_left fun c hc => congrArg List.length (hchild c hc).2)

theorem Tree.Inv.searchable (L : ListLike T) {maxSize : Nat} {t : Tree T} {xs : List V} (ht : t.Inv L maxSize xs) :
    t.Searchable T xs := by
  obtain ⟨hnode, hvals⟩ := searchable_of_wellFormed L t.height t.root ht.wellFormed
  exact ⟨ht.size_eq, hvals.trans ht.values_eq, hnode⟩

end Reading

/-! ## The search -/

section Search

variable {C V : Type} {vals : C → List V} {p : V → Bool}

theorem exists_cut_below : ∀ (c₀ : C) (rest : List C), (∀ c ∈ c₀ :: rest, vals c ≠ []) →
    ((c₀ :: rest).flatMap vals).Pairwise (fun a b => p b = true → p a = true) →
    ∃ pre c post, c₀ :: rest = pre ++ c :: post ∧ pre.length = rest.countP (fun c => (vals c).head?.any p) ∧
      (∀ x ∈ pre.flatMap vals, p x = true) ∧ ∀ x ∈ post.flatMap vals, p x = false
  | c₀, [], _, _ => ⟨[], c₀, [], rfl, rfl, fun _ hx => absurd hx List.not_mem_nil, fun _ hx =>
    absurd hx List.not_mem_nil⟩
  | c₀, c₁ :: rest, hne, hsorted => by
    obtain ⟨a, tl, ha⟩ := List.exists_cons_of_ne_nil (hne c₁ (by simp))
    rw [List.flatMap_cons, List.pairwise_append] at hsorted
    obtain ⟨-, hrest, hbefore⟩ := hsorted
    have hhead : (vals c₁).head?.any p = p a := by rw [ha]; rfl
    have hmem : a ∈ (c₁ :: rest).flatMap vals := List.mem_flatMap.mpr ⟨c₁, List.mem_cons_self, by simp [ha]⟩
    cases hp : p a with
    | true =>
      obtain ⟨pre, c, post, hcut, hlen, hpre, hpost⟩ :=
        exists_cut_below c₁ rest (fun c hc => hne c (List.mem_cons_of_mem _ hc)) hrest
      refine ⟨c₀ :: pre, c, post, by rw [hcut]; rfl, ?_, fun x hx => ?_, hpost⟩
      · have hcount : (c₁ :: rest).countP (fun c => (vals c).head?.any p) =
            rest.countP (fun c => (vals c).head?.any p) + 1 := List.countP_cons_of_pos (hhead.trans hp)
        rw [hcount, List.length_cons, hlen]
      · rw [List.flatMap_cons] at hx
        rcases List.mem_append.mp hx with hx | hx
        · exact hbefore x hx a hmem hp
        · exact hpre x hx
    | false =>
      have hcut : (c₁ :: rest).flatMap vals = a :: (tl ++ rest.flatMap vals) := by
        rw [List.flatMap_cons, ha, List.cons_append]
      rw [hcut] at hrest
      -- The first element behind `c₀` is not below, so none is, and no child behind begins below.
      have hnone := List.countP_eq_zero.mp (Search.countP_eq_zero_of_head hrest hp)
      refine ⟨[], c₀, c₁ :: rest, rfl, ?_, fun _ hx => absurd hx List.not_mem_nil, fun x hx => ?_⟩
      · refine (List.countP_eq_zero.mpr fun c hc hq => ?_).symm
        obtain ⟨b, tl', hb⟩ := List.exists_cons_of_ne_nil (hne c (List.mem_cons_of_mem _ hc))
        rw [hb] at hq
        refine hnone b ?_ hq
        rw [← hcut]
        exact List.mem_flatMap.mpr ⟨c, hc, by simp [hb]⟩
      · rw [hcut] at hx
        simpa using hnone x hx

theorem pairwise_heads {cs : List C} (hne : ∀ c ∈ cs, vals c ≠ [])
    (h : (cs.flatMap vals).Pairwise (fun a b => p b = true → p a = true)) :
    cs.Pairwise (fun c d => (vals d).head?.any p = true → (vals c).head?.any p = true) := by
  refine ((List.pairwise_flatMap.mp h).2).imp_of_mem fun {c d} hc hd hcd hq => ?_
  obtain ⟨a, tl, ha⟩ := List.exists_cons_of_ne_nil (hne c hc)
  obtain ⟨b, tl', hb⟩ := List.exists_cons_of_ne_nil (hne d hd)
  rw [hb] at hq
  rw [ha]
  exact hcd a (by simp [ha]) b (by simp [hb]) hq

end Search

section Descent

variable {V : Type} {T : LeafClass V} {lt : V → V → Bool} {value : V}

theorem subtreeFirstValue_eq : ∀ (h : Nat) (n : Node T.Leaf h), SearchableNode T h n → readValues T h n ≠ [] →
    subtreeFirstValue T h n = (readValues T h n).head?
  | 0, l, hl, hne => by
    obtain ⟨hlen, hget⟩ := leafValues_spec hl
    have hpos := List.length_pos_iff.mpr hne
    change T.get l 0 = (leafValues T l).head?
    rw [List.head?_eq_getElem?, hget 0 (by rw [← hlen]; exact hpos)]
  | h + 1, n, hn, hne => by
    obtain ⟨c, cs, hcs⟩ := List.exists_cons_of_ne_nil hn.1
    obtain ⟨hc, hcne⟩ := hn.2.1 c (by simp [hcs])
    have ih := subtreeFirstValue_eq h c hc hcne
    change (n.children.head?.bind (firstLeaf T h)).bind (T.get · 0) = (n.children.flatMap (readValues T h)).head?
    rw [hcs, List.flatMap_cons, List.head?_append_of_ne_nil _ hcne, ← ih]
    rfl

/-- **The descent** counts the elements of the node that are below the value. -/
theorem lowerBoundFrom_eq : ∀ (h : Nat) (n : Node T.Leaf h) (base : Nat), SearchableNode T h n →
    (readValues T h n).Pairwise (fun a b => lt b value = true → lt a value = true) →
    lowerBoundFrom T lt value h n base = some (base + (readValues T h n).countP (lt · value))
  | 0, l, base, hl, hsorted => by
    obtain ⟨hlen, hget⟩ := leafValues_spec hl
    have hsearch : Search.bisect (fun mid => (T.get l mid).map (lt · value)) (T.size l) 0 (T.size l) =
        some ((leafValues T l).countP (lt · value)) := by
      refine Search.bisect_eq (Nat.sub_le _ _) (Nat.zero_le _) ?_ fun i _ hi => ?_
      · rw [← hlen]
        exact List.countP_le_length
      · obtain ⟨x, hx⟩ := Option.isSome_iff_exists.mp (hl i hi)
        rw [hx, Option.map_some, Search.pred_getElem hsorted ((hget i hi).trans hx)]
        rfl
    rw [lowerBoundFrom, hsearch]
    rfl
  | h + 1, n, base, hn, hsorted => by
    obtain ⟨c₀, rest, hcs⟩ := List.exists_cons_of_ne_nil hn.1
    have hvals : readValues T (h + 1) n = (c₀ :: rest).flatMap (readValues T h) := by
      rw [← hcs]
      rfl
    rw [hvals] at hsorted ⊢
    have hne : ∀ c ∈ c₀ :: rest, readValues T h c ≠ [] := fun c hc => (hn.2.1 c (hcs ▸ hc)).2
    obtain ⟨pre, c, post, hcut, hlen, hpre, hpost⟩ := exists_cut_below c₀ rest hne hsorted
    have hheads := (List.pairwise_cons.mp (pairwise_heads hne hsorted)).2
    have hlast : pre.length + 1 ≤ (c₀ :: rest).length := by
      rw [hcut, List.length_append, List.length_cons]
      omega
    have hsearch : Search.bisect (fun mid => (n.children[mid]?.bind (subtreeFirstValue T h)).map (lt · value))
        n.children.length 1 n.children.length = some (pre.length + 1) := by
      rw [hcs]
      refine Search.bisect_eq (Nat.sub_le _ _) (Nat.le_add_left 1 _) hlast fun i hi hi' => ?_
      obtain ⟨i, rfl⟩ := Nat.exists_eq_add_of_le' hi
      have hlt : i < rest.length := by simpa using hi'
      have hget : rest[i]? = some rest[i] := List.getElem?_eq_getElem hlt
      have hmem := List.mem_of_getElem? hget
      obtain ⟨hnode, hcne⟩ := hn.2.1 rest[i] (by rw [hcs]; exact List.mem_cons_of_mem _ hmem)
      obtain ⟨a, tl, ha⟩ := List.exists_cons_of_ne_nil hcne
      have hbelow := Search.pred_getElem hheads hget
      rw [ha] at hbelow
      rw [List.getElem?_cons_succ, hget, Option.bind_some, subtreeFirstValue_eq h _ hnode hcne, ha]
      refine (congrArg some hbelow).trans ?_
      rw [← hlen]
      simp
    have hloc := hn.2.2
    rw [hcs, hcut] at hloc
    have hchild : n.children[pre.length + 1 - 1]? = some c := by rw [hcs, hcut, Nat.add_sub_cancel, getElem?_mid]
    have hoffset : n.childOffset (pre.length + 1 - 1) = (pre.flatMap (readValues T h)).length := by
      rw [Nat.add_sub_cancel, n.holds_self.childOffset_eq, hloc.offset, span_len]
    rw [hcut, List.flatMap_append, List.flatMap_cons] at hsorted ⊢
    have hc := (hn.2.1 c (by rw [hcs, hcut]; simp)).1
    have hsorted' := (List.pairwise_append.mp (List.pairwise_append.mp hsorted).2.1).1
    have hbelow : (pre.flatMap (readValues T h)).countP (lt · value) = (pre.flatMap (readValues T h)).length :=
      List.countP_eq_length.mpr hpre
    have habove : (post.flatMap (readValues T h)).countP (lt · value) = 0 := by
      refine List.countP_eq_zero.mpr fun x hx => ?_
      rw [hpost x hx]
      exact Bool.false_ne_true
    rw [lowerBoundFrom, hsearch, Option.bind_some, hchild, Option.bind_some, hoffset,
      lowerBoundFrom_eq h c _ hc hsorted', List.countP_append, List.countP_append, hbelow, habove, Nat.add_zero,
      Nat.add_assoc]

theorem Tree.Searchable.lowerBound {t : Tree T} {xs : List V} {value : V} (ht : t.Searchable T xs)
    (hsorted : xs.Pairwise fun a b => lt b value = true → lt a value = true) :
    t.lowerBound T lt value = some (xs.countP (lt · value)) := by
  unfold Tree.lowerBound
  split
  · rename_i h0
    rw [List.length_eq_zero_iff.mp (ht.size_eq.symm.trans h0)]
    rfl
  · have hvals := ht.values_eq
    rw [← hvals] at hsorted ⊢
    rw [lowerBoundFrom_eq t.height t.root 0 ht.node hsorted, Nat.zero_add]

/-- **`lower_bound`** over elements in order is the number of elements below the value.  Of the order it takes only that
an element not above one that is below the value is below it too. -/
theorem lowerBound_eq_countP {le : V → V → Prop} (hle : ∀ a b v, le a b → lt b v = true → lt a v = true) {t : Tree T}
    {xs : List V} (ht : t.Searchable T xs) (hsorted : xs.Pairwise le) (value : V) :
    t.lowerBound T lt value = some (xs.countP (lt · value)) :=
  ht.lowerBound (hsorted.imp fun hab => hle _ _ value hab)

end Descent

/-- An integer tree in general form with the elements 1, 3, 3, 3 and 5 in leaves of two: the search for 3 ends in the
first leaf although the second one begins with 3. -/
def sortedTree : Tree Leaf.integerClass :=
  ⟨1, ⟨0, .general 1 [2, 4], [⟨2, [1, 3]⟩, ⟨3, [3, 3]⟩, ⟨4, [5]⟩], 5⟩, 5, none⟩

theorem searchable_sortedTree : sortedTree.Searchable Leaf.integerClass [1, 3, 3, 3, 5] := by
  have hleaf : ∀ a : Leaf.Arr Int, SearchableNode Leaf.integerClass 0 a := by
    intro a i hi
    rw [show Leaf.integerClass.get a i = a.elems[i]? from rfl, List.getElem?_eq_getElem hi]
    rfl
  refine ⟨rfl, rfl, List.cons_ne_nil _ _, fun c hc => ⟨hleaf c, ?_⟩, rfl⟩
  rcases List.mem_cons.mp hc with rfl | hc
  · exact List.cons_ne_nil _ _
  rcases List.mem_cons.mp hc with rfl | hc
  · exact List.cons_ne_nil _ _
  rw [List.mem_singleton.mp hc]
  exact List.cons_ne_nil _ _

theorem lowerBound_sortedTree : sortedTree.Searchable Leaf.integerClass [1, 3, 3, 3, 5] ∧
    [1, 3, 3, 3, (5 : Int)].Pairwise (· ≤ ·) ∧
    sortedTree.lowerBound Leaf.integerClass (fun a b : Int => decide (a < b)) 3 = some 1 := by
  have hsorted : [1, 3, 3, 3, (5 : Int)].Pairwise (· ≤ ·) := by decide
  have hle : ∀ a b v : Int, a ≤ b → decide (b < v) = true → decide (a < v) = true :=
    fun a b v hab hbv => decide_eq_true (lt_of_le_of_lt hab (of_decide_eq_true hbv))
  exact ⟨searchable_sortedTree, hsorted, lowerBound_eq_countP hle searchable_sortedTree hsorted 3⟩

end Llbt.BPlusTree
