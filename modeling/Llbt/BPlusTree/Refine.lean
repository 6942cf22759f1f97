import Llbt.BPlusTree.Erase
import Llbt.Leaf.Array

/-!
# The B+tree refines a list

`Tree.Denotes L maxSize t xs` is what a tree owes to the list `xs`: `size` and `get` answer as the
list does, and the tree is well formed with all leaves at one depth.  `denotes_run` — a tree that
starts empty denotes, after any sequence of operations, what the same operations make of the empty
list.  Reads are among the operations, since they move the leaf cache.
-/

set_option autoImplicit false

namespace Llbt.BPlusTree

open Ownership Segments

/-! ## Access through the levels -/

namespace Inner

section Level

variable {C V : Type} {maxSize full : Nat} {ok : C → Prop} {compact : C → Bool} {vals : C → List V}
  {n : Inner C} {lay : Layout} {pre post : List C} {c c' : C} {sz : Nat}

theorem exists_child (hn : n.Laid maxSize full ok compact vals) {i : Nat}
    (hi : i < (n.children.flatMap vals).length) :
    ∃ pre c post, n.children = pre ++ c :: post ∧ n.childIndex i = pre.length ∧
      n.childOffset pre.length = (pre.flatMap vals).length ∧ (pre.flatMap vals).length ≤ i ∧
      i - (pre.flatMap vals).length < (vals c).length ∧ ok c := by
  obtain ⟨pre, c, post, hcs, hle, hlt, hindex⟩ :=
    hn.located.lookup hn.child_pos (by rw [span_len]; exact hi)
  rw [span_len] at hle hlt
  refine ⟨pre, c, post, hcs, ?_, ?_, hle, Nat.sub_lt_left_of_lt_add hle hlt, hn.child_ok c (by simp [hcs])⟩
  · rw [n.holds_self.childIndex_eq, hindex]
  · have hloc := hn.located
    rw [hcs] at hloc
    rw [n.holds_self.childOffset_eq, hloc.offset, span_len]

theorem set_mid_list {i : Nat} (v : V) (a x b : List V) (hle : a.length ≤ i)
    (hlt : i - a.length < x.length) :
    (a ++ (x ++ b)).set i v = a ++ (x.set (i - a.length) v ++ b) := by
  rw [List.set_append_right _ _ hle, List.set_append_left _ _ hlt]

/-- The contract of a descent that replaces element `i` by `v`. -/
structure UpdateOutcome {L : Type} (valid : L → Prop) (lvals : L → List V) (ok : C → Prop)
    (compact : C → Bool) (size : C → Nat) (vals : C → List V) (c : C) (i off : Nat) (v : V)
    (r : C × Cached L) : Prop where
  node_ok : ok r.1
  size_eq : size r.1 = size c
  values_eq : vals r.1 = (vals c).set i v
  compact_eq : compact r.1 = compact c
  cache : InRange valid lvals (vals r.1) off r.2

theorem updateOutcome_inner {L : Type} {valid : L → Prop} {lvals : L → List V} {ref : C → Ref} {v : V}
    {size : C → Nat}
    {updateChild : C → Nat → Nat → Prog (C × Cached L)}
    (hupdate : ∀ c i off, ok c → i < (vals c).length → Yields (updateChild c i off)
      (UpdateOutcome valid lvals ok compact size vals c i off v))
    (hn : n.Laid maxSize full ok compact vals) {i : Nat} (off : Nat)
    (hi : i < (n.children.flatMap vals).length) :
    Yields (n.bptreeUpdate ref updateChild i off)
      (UpdateOutcome valid lvals (·.Laid maxSize full ok compact vals) (·.form.isCompact)
        (·.children.length) (·.children.flatMap vals) n i off v) := by
  obtain ⟨pre, c, post, hcs, hindex, hoffset, hle, hlt, hok⟩ := exists_child hn hi
  unfold bptreeUpdate
  dsimp only
  rw [hindex, hoffset]
  have hc : n.children[pre.length]? = some c := by rw [hcs, getElem?_mid]
  refine (yields_child hc).bind ?_
  rintro _ rfl
  refine (hupdate c _ _ hok hlt).bind fun r hr => ?_
  have hself := n.holds_self
  rw [hcs] at hself
  refine (holds_setChild ref hself (by simp) r.1).bind fun n' h' => Yields.pure ?_
  rw [set_mid] at h'
  have hw := hn
  rw [Laid, hcs] at hw
  have hlen : len vals r.1 = len vals c := by rw [len, hr.values_eq, List.length_set]
  have hvals : n'.children.flatMap vals = pre.flatMap vals ++ (vals r.1 ++ post.flatMap vals) := by
    rw [h'.children]
    simp
  refine ⟨h'.laid (hw.replaceSame hr.node_ok hlen hr.compact_eq), ?_, ?_, ?_, ?_⟩
  · change n'.children.length = n.children.length
    rw [h'.children, hcs]
    simp
  · change n'.children.flatMap vals = (n.children.flatMap vals).set i v
    rw [hvals, hcs, List.flatMap_append, List.flatMap_cons, set_mid_list v _ _ _ hle hlt, hr.values_eq]
  · change n'.form.isCompact = n.form.isCompact
    rw [h'.isCompact_eq, n.holds_self.isCompact_eq]
  · change InRange valid lvals (n'.children.flatMap vals) off r.2
    rw [hvals]
    exact hr.cache.append _ _

/-- The contract of a descent that reads: the leaf reached holds element `i`. -/
def Reaches {L : Type} (valid : L → Prop) (lvals : L → List V) (xs : List V) (i off : Nat)
    (r : Option (Cached L)) : Prop :=
  ∃ c, r = some c ∧ InRange valid lvals xs off c ∧ c.first ≤ off + i ∧ off + i < c.last

theorem reaches_inner {L : Type} {valid : L → Prop} {lvals : L → List V}
    {accessChild : C → Nat → Nat → Option (Cached L)}
    (haccess : ∀ c i off, ok c → i < (vals c).length →
      Reaches valid lvals (vals c) i off (accessChild c i off))
    (hn : n.Laid maxSize full ok compact vals) {i : Nat} (off : Nat)
    (hi : i < (n.children.flatMap vals).length) :
    Reaches valid lvals (n.children.flatMap vals) i off (n.bptreeAccess accessChild i off) := by
  obtain ⟨pre, c, post, hcs, hindex, hoffset, hle, hlt, hok⟩ := exists_child hn hi
  obtain ⟨cache, hcache, hrange, hfirst, hlast⟩ := haccess c _ ((pre.flatMap vals).length + off) hok hlt
  refine ⟨cache, ?_, ?_, by omega, by omega⟩
  · unfold bptreeAccess
    dsimp only
    rw [hindex, hoffset, hcs, getElem?_mid]
    exact hcache
  · rw [hcs, List.flatMap_append, List.flatMap_cons]
    exact hrange.append _ _

end Level

end Inner

section Levels

variable {V : Type} {T : LeafClass V} (L : ListLike T) {maxSize : Nat}

theorem updateOutcome_bptreeUpdate (v : V) : ∀ (h : Nat) (n : Node T.Leaf h) (i off : Nat),
    WellFormed L maxSize h n → i < (nodeValues L h n).length →
    Yields (bptreeUpdate T (fun l ndx => T.set l ndx v) h n i off)
      (Inner.UpdateOutcome L.Valid L.values (WellFormed L maxSize h) (isCompact T h) (nodeSize T h)
        (nodeValues L h) n i off v)
  | 0, l, i, off, hl, hi => by
    refine (L.set l i v hl.1 hi).bind fun l' hl' => Yields.pure ?_
    obtain ⟨hvalid, hvals⟩ := hl'
    have hlen : (L.values l').length = (L.values l).length := by rw [hvals, List.length_set]
    have hend : off + T.size l = off + (L.values l').length := by rw [L.size_eq l hl.1, hlen]
    have hwhole : L.values l' = [] ++ (L.values l' ++ []) := by
      rw [List.nil_append, List.append_nil]
    have hsize : T.size l' = T.size l := by rw [L.size_eq l' hvalid, L.size_eq l hl.1, hlen]
    exact ⟨⟨hvalid, hlen.le.trans hl.2⟩, hsize, hvals, rfl, hvalid, [], [], hwhole, rfl, hend⟩
  | h + 1, _, _, off, hn, hi =>
    Inner.updateOutcome_inner
      (fun c i' off' hc hi' => updateOutcome_bptreeUpdate v h c i' off' hc hi') hn off hi

theorem reaches_bptreeAccess : ∀ (h : Nat) (n : Node T.Leaf h) (i off : Nat), WellFormed L maxSize h n →
    i < (nodeValues L h n).length →
    Inner.Reaches L.Valid L.values (nodeValues L h n) i off (bptreeAccess T h n i off)
  | 0, l, i, off, hl, hi => by
    have hend : off + T.size l = off + (L.values l).length := by rw [L.size_eq l hl.1]
    have hwhole : L.values l = [] ++ (L.values l ++ []) := by
      rw [List.nil_append, List.append_nil]
    have hlt : i < (L.values l).length := hi
    refine ⟨_, rfl, ⟨hl.1, [], [], hwhole, rfl, hend⟩, Nat.le_add_right _ _, ?_⟩
    change off + i < off + T.size l
    omega
  | h + 1, _, _, off, hn, hi =>
    Inner.reaches_inner (fun c i' off' hc hi' => reaches_bptreeAccess h c i' off' hc hi') hn off hi

/-! ## The accessor -/

def Tree.values (t : Tree T) : List V := nodeValues L t.height t.root

/-- The cached leaf is where its bounds say; over a root that is a leaf nothing is cached. -/
def CacheOk (h : Nat) (cache : Option (Cached T.Leaf)) (xs : List V) : Prop :=
  (h = 0 → cache = none) ∧ ∀ c, cache = some c → InRange L.Valid L.values xs 0 c

structure Tree.Inv (maxSize : Nat) (t : Tree T) (xs : List V) : Prop where
  values_eq : t.values L = xs
  wellFormed : WellFormed L maxSize t.height t.root
  root_ok : RootOk T t.height t.root
  size_eq : t.size = xs.length
  cache_ok : CacheOk L t.height t.cache xs

theorem inv_create : Yields (Tree.create T) (·.Inv L maxSize []) := by
  refine L.create.bind fun l hl => Yields.pure ?_
  obtain ⟨hvalid, hvals⟩ := hl
  refine ⟨hvals, ⟨hvalid, ?_⟩, trivial, rfl, fun _ => rfl, fun c hc => ?_⟩
  · rw [hvals]
    exact Nat.zero_le _
  · cases hc

theorem holds_newRoot {C : Type} (compactForm : Bool) (root : C) (sp : Split C) : Yields (newRoot compactForm root sp)
    (·.Holds (if compactForm then .compact sp.splitOffset else .general (Inner.withOffset sp.splitOffset []))
      [root, sp.sibling] sp.splitSize) := by
  have hform : Yields (emptyRoot compactForm sp.splitOffset : Prog (Inner C))
      (·.Holds (if compactForm then .compact sp.splitOffset else .general []) [] 0) := by
    unfold emptyRoot
    split
    · exact Inner.holds_create _
    · exact Inner.holds_createGeneral
  refine hform.bind fun r₀ h₀ => (Inner.holds_addBpNodeRef h₀ root 0).bind fun r₁ h₁ =>
    (Inner.holds_addBpNodeRef h₁ sp.sibling sp.splitOffset).bind fun r₂ h₂ =>
    (Inner.holds_setTreeSize h₂ sp.splitSize).mono fun r₃ h₃ => ?_
  cases compactForm with
  | false => exact h₃
  | true => exact h₃

theorem yields_newRoot {h : Nat} {n : Node T.Leaf h} {sp : Split (Node T.Leaf h)} {xs : List V}
    {compactForm : Bool} (hmax : 2 ≤ maxSize) (hn : WellFormed L maxSize h n)
    (hs : WellFormed L maxSize h sp.sibling) (hne : nodeValues L h n ≠ [])
    (hnes : nodeValues L h sp.sibling ≠ []) (hjoin : nodeValues L h n ++ nodeValues L h sp.sibling = xs)
    (hoff : sp.splitOffset = (nodeValues L h n).length) (hsize : sp.splitSize = xs.length)
    (hcompact : compactForm = true → isCompact T h n = true ∧ isCompact T h sp.sibling = true ∧
      (nodeValues L h n).length = maxSize ^ (h + 1)) :
    Yields (newRoot compactForm n sp) (fun root => WellFormed L maxSize (h + 1) root ∧
      root.children.flatMap (nodeValues L h) = xs ∧ root.children.length = 2) := by
  have hpos : 0 < (nodeValues L h n).length := List.length_pos_iff.mpr hne
  refine (holds_newRoot compactForm n sp).mono fun root hroot => ?_
  refine ⟨?_, by rw [hroot.children]; simpa using hjoin, by rw [hroot.children]; rfl⟩
  refine hroot.laid ⟨by simp, by simpa using hmax, ?_, ?_, ?_, ?_, ?_⟩
  · simpa using ⟨hn, hs⟩
  · simpa using ⟨hne, hnes⟩
  · rw [hsize, ← hjoin]
    simp
  · cases compactForm with
    | false =>
      change 0 :: Inner.withOffset sp.splitOffset [] = _
      rw [hoff, Inner.withOffset, if_neg (by omega)]
      simp [starts]
    | true =>
      obtain ⟨-, hcs, hfull⟩ := hcompact rfl
      have hle := length_le_of_isCompact L maxSize h sp.sibling hs hcs
      refine ⟨by omega, ?_, ?_⟩
      · simpa using hoff.symm
      · simp only [List.mem_cons, List.not_mem_nil, or_false]
        rintro c (rfl | rfl)
        · exact hoff.ge
        · change (nodeValues L h sp.sibling).length ≤ _
          omega
  · intro e he
    cases compactForm with
    | false => cases he
    | true =>
      obtain ⟨hcn, hcs, hfull⟩ := hcompact rfl
      refine ⟨?_, by simpa using ⟨hcn, hcs⟩⟩
      rw [← hfull, ← hoff]
      exact (Layout.compact.inj he).symm

theorem inv_replaceSplitRoot {h : Nat} {n : Node T.Leaf h} {split : Option (Split (Node T.Leaf h))}
    {xs : List V} {ndx : Option Nat} {size : Nat} {cache : Option (Cached T.Leaf)}
    (hmax : 2 ≤ maxSize) (hn : WellFormed L maxSize h n) (hroot : split = none → RootOk T h n)
    (hne : nodeValues L h n ≠ []) (hkept : split = none → nodeValues L h n = xs)
    (hsplit : ∀ sp, split = some sp → WellFormed L maxSize h sp.sibling ∧ nodeValues L h sp.sibling ≠ [] ∧
      nodeValues L h n ++ nodeValues L h sp.sibling = xs ∧ sp.splitOffset = (nodeValues L h n).length ∧
      sp.splitSize = xs.length)
    (hcompact : ndx.isNone = true → isCompact T h n = true → ∀ sp, split = some sp →
      isCompact T h sp.sibling = true ∧ (nodeValues L h n).length = maxSize ^ (h + 1))
    (hsize : size = xs.length) (hcache : CacheOk L h cache xs) :
    Yields (replaceSplitRoot T ndx size cache h n split) (·.Inv L maxSize xs) := by
  cases split with
  | none => exact Yields.pure ⟨hkept rfl, hn, hroot rfl, hsize, hcache⟩
  | some sp =>
    obtain ⟨hs, hnes, hjoin, hoff, hssize⟩ := hsplit sp rfl
    refine (yields_newRoot L hmax hn hs hne hnes hjoin hoff hssize fun hc => ?_).bind
      fun root hr => Yields.pure ?_
    · rw [Bool.and_eq_true] at hc
      obtain ⟨hcs, hfull⟩ := hcompact hc.1 hc.2 sp rfl
      exact ⟨hc.2, hcs, hfull⟩
    · obtain ⟨hwf, hvals, hlen⟩ := hr
      exact ⟨hvals, hwf, hlen.ge, hsize, ⟨fun h0 => absurd h0 (Nat.succ_ne_zero h), hcache.2⟩⟩

theorem splice_length_index (vs : List V) {xs : List V} {ndx : Option Nat} :
    splice (if ndx = some xs.length then none else ndx) vs xs = splice ndx vs xs := by
  split
  · rename_i h
    rw [h]
    simp [splice]
  · rfl

/-- The insertion into a root meets its contract, which for a leaf is the one of a leaf. -/
def InsertsAt (maxSize : Nat) (func : InsertFunc T.Leaf) (vs : List V) : (h : Nat) → Node T.Leaf h → Option Nat → Prop
  | 0, l, ndx => Yields (leafInsert T maxSize func l ndx)
      (LeafOutcome L maxSize (splice ndx vs (L.values l)) ndx.isNone l)
  | h + 1, n, ndx => Yields (bptreeInsert T maxSize func (h + 1) n ndx 0)
      (Outcome L.Valid L.values (maxSize ^ (h + 1 + 1)) (WellFormed L maxSize (h + 1)) (isCompact T (h + 1))
        (nodeSize T (h + 1)) (nodeValues L (h + 1)) (splice ndx vs (nodeValues L (h + 1) n)) 0 (nodeSize T (h + 1) n)
        ndx.isNone (isCompact T (h + 1) n))

theorem inv_bptreeInsert_of (hmax : 2 ≤ maxSize) {func : InsertFunc T.Leaf} {vs : List V}
    (hcount : func.count = vs.length) {t : Tree T} {xs : List V} (ht : t.Inv L maxSize xs) (ndx : Option Nat)
    (hinsert : InsertsAt L maxSize func vs t.height t.root (if ndx = some xs.length then none else ndx)) :
    Yields (Tree.bptreeInsert T maxSize t ndx func) (·.Inv L maxSize (splice ndx vs xs)) := by
  have htree : treeSize T t.height t.root = xs.length := by
    rw [treeSize_eq L maxSize t.height t.root ht.wellFormed, ← ht.values_eq]
    rfl
  rw [← splice_length_index]
  unfold Tree.bptreeInsert
  rw [htree]
  generalize (if ndx = some xs.length then none else ndx) = ndx' at *
  obtain ⟨h, root, size, cache⟩ := t
  obtain ⟨hvals, hwf, hroot, hsize, hcache⟩ := ht
  have hsize' : size + func.count = (splice ndx' vs xs).length := by
    rw [splice_length, hcount]
    exact congrArg (· + vs.length) hsize
  cases h with
  | zero =>
    have hxs : L.values root = xs := hvals
    subst hxs
    refine Yields.bind hinsert fun r hr => ?_
    refine inv_replaceSplitRoot L hmax hr.ok (fun _ => trivial) hr.nonempty hr.kept hr.split
      (fun hend _ sp hsp => ⟨rfl, ?_⟩) hsize' ⟨fun _ => ?_, fun c hc => ?_⟩
    · rw [Nat.zero_add, pow_one]
      exact hr.full hend sp hsp
    all_goals
      have hnone : cache = none := hcache.1 rfl
    · rw [hnone]
      cases r.2.2 <;> rfl
    · rw [hnone] at hc
      cases hr' : r.2.2 with
      | none => rw [hr'] at hc; cases hc
      | some d => rw [hr'] at hc; cases hc
  | succ h =>
    have hxs : nodeValues L (h + 1) root = xs := hvals
    subst hxs
    refine Yields.bind hinsert fun r hr => ?_
    refine inv_replaceSplitRoot L hmax hr.node_ok (fun hkept => hroot.trans (hr.size_le hkept)) hr.nonempty
      hr.kept hr.split
      (fun hend hc sp hsp => hr.complete hend ((hr.node_compact hend).symm.trans hc) sp hsp) hsize'
      ⟨fun h0 => absurd h0 (Nat.succ_ne_zero h), hr.cache⟩

theorem inv_bptreeInsert (hmax : 2 ≤ maxSize) {func : InsertFunc T.Leaf} {vs : List V}
    (hfunc : Adds L maxSize func vs) {t : Tree T} {xs : List V} (ht : t.Inv L maxSize xs) (ndx : Option Nat)
    (hndx : ∀ i, ndx = some i → i ≤ xs.length ∧ vs.length = 1) :
    Yields (Tree.bptreeInsert T maxSize t ndx func) (·.Inv L maxSize (splice ndx vs xs)) := by
  -- An index that is left after the comparison with the size is an index of an element.
  have hin : ∀ i, (if ndx = some xs.length then none else ndx) = some i → i < xs.length ∧ vs.length = 1 := by
    intro i hi
    split at hi
    · cases hi
    · rename_i hne
      obtain ⟨hle, hone⟩ := hndx i hi
      refine ⟨lt_of_le_of_ne hle fun heq => hne ?_, hone⟩
      rw [hi, heq]
  refine inv_bptreeInsert_of L hmax hfunc.1 ht ndx ?_
  generalize (if ndx = some xs.length then none else ndx) = ndx' at *
  obtain ⟨h, root, size, cache⟩ := t
  obtain ⟨rfl, hwf, -, -, -⟩ := ht
  cases h with
  | zero => exact hfunc.2 root ndx' hwf hin
  | succ h => exact outcome_bptreeInsert L hfunc (h + 1) root ndx' 0 hwf (Inner.Laid.values_ne_nil hwf) hin

theorem two_le_length {h : Nat} {n : Inner (Node T.Leaf h)} (hn : WellFormed L maxSize (h + 1) n)
    (hroot : RootOk T (h + 1) n) : 2 ≤ (nodeValues L (h + 1) n).length := by
  have hroot' : 2 ≤ n.children.length := hroot
  change 2 ≤ (n.children.flatMap (nodeValues L h)).length
  obtain ⟨a, b, rest, hcs⟩ : ∃ a b rest, n.children = a :: b :: rest := by
    match hc : n.children, hroot' with
    | a :: b :: rest, _ => exact ⟨a, b, rest, rfl⟩
  have ha := hn.child_pos a (by simp [hcs])
  have hb := hn.child_pos b (by simp [hcs])
  rw [hcs]
  simp only [len, List.flatMap_cons, List.length_append] at ha hb ⊢
  omega

theorem inv_erase {t : Tree T} {xs : List V} (ht : t.Inv L maxSize xs) {i : Nat} (hi : i < xs.length) :
    Yields (Tree.erase T maxSize t i) (·.Inv L maxSize (xs.eraseIdx i)) := by
  obtain ⟨h, root, size, cache⟩ := t
  obtain ⟨hvals, hwf, hroot, hsize, hcache⟩ := ht
  have hsize' : size - 1 = (xs.eraseIdx i).length := by
    rw [List.length_eraseIdx_of_lt hi]
    exact congrArg (· - 1) hsize
  cases h with
  | zero =>
    have hxs : L.values root = xs := hvals
    subst hxs
    refine (L.erase root i hwf.1 hi).bind fun l hl => Yields.pure ?_
    obtain ⟨hvalid, hvals'⟩ := hl
    have hle : (L.values l).length ≤ maxSize := by
      rw [hvals', List.length_eraseIdx_of_lt hi]
      exact (Nat.sub_le _ _).trans hwf.2
    have hnone : cache = none := hcache.1 rfl
    exact ⟨hvals', ⟨hvalid, hle⟩, trivial, hsize', fun _ => hnone, fun c hc => by rw [hnone] at hc; cases hc⟩
  | succ h =>
    have hxs : nodeValues L (h + 1) root = xs := hvals
    subst hxs
    refine (eraseOutcome_bptreeErase L (h + 1) root i 0 hwf hi).bind fun r hr => ?_
    have hi' : i < (nodeValues L (h + 1) root).length := hi
    have hne : (nodeValues L (h + 1) root).eraseIdx i ≠ [] := by
      have htwo : 2 ≤ (nodeValues L (h + 1) root).length := two_le_length L hwf hroot
      rw [← List.length_pos_iff, List.length_eraseIdx_of_lt hi']
      omega
    obtain ⟨hok, hnodeSize, -⟩ := hr.node_ok hne
    refine (yields_collapse L (h + 1) r.node r.nodeSize hok hnodeSize).bind fun p hp => Yields.pure ?_
    obtain ⟨hpw, hpvals, hproot, hdeep⟩ := hp
    refine ⟨hpvals.trans hr.values_eq, hpw, hproot, hsize', fun h0 => ?_, hr.cache⟩
    by_contra hcached
    exact hdeep (Nat.succ_ne_zero h) (hr.node_deep hcached hroot) h0

theorem inv_set {t : Tree T} {xs : List V} (ht : t.Inv L maxSize xs) {i : Nat} (hi : i < xs.length) (v : V) :
    Yields (Tree.set T t i v) (·.Inv L maxSize (xs.set i v)) := by
  obtain ⟨h, root, size, cache⟩ := t
  obtain ⟨hvals, hwf, hroot, hsize, hcache⟩ := ht
  have hsize' : size = (xs.set i v).length := by
    rw [List.length_set]
    exact hsize
  cases h with
  | zero =>
    have hxs : L.values root = xs := hvals
    subst hxs
    refine (L.set root i v hwf.1 hi).bind fun l hl => Yields.pure ?_
    obtain ⟨hvalid, hvals'⟩ := hl
    have hle : (L.values l).length ≤ maxSize := by
      rw [hvals', List.length_set]
      exact hwf.2
    have hnone : cache = none := hcache.1 rfl
    exact ⟨hvals', ⟨hvalid, hle⟩, trivial, hsize', fun _ => hnone, fun c hc => by rw [hnone] at hc; cases hc⟩
  | succ h =>
    have hxs : nodeValues L (h + 1) root = xs := hvals
    subst hxs
    refine (updateOutcome_bptreeUpdate L v (h + 1) root i 0 hwf hi).bind fun r hr => Yields.pure ?_
    refine ⟨hr.values_eq, hr.node_ok, hroot.trans hr.size_eq.ge, hsize',
      fun h0 => absurd h0 (Nat.succ_ne_zero h), fun c hc => ?_⟩
    cases hc
    have hrange := hr.cache
    rw [hr.values_eq] at hrange
    exact hrange

theorem inv_clear {t : Tree T} {xs : List V} (ht : t.Inv L maxSize xs) :
    Yields (Tree.clear T t) (·.Inv L maxSize []) := by
  obtain ⟨h, root, size, cache⟩ := t
  obtain ⟨-, hwf, -, -, hcache⟩ := ht
  cases h with
  | zero =>
    refine (L.clear root hwf.1).bind fun l hl => Yields.pure ?_
    obtain ⟨hvalid, hvals⟩ := hl
    have hnone : cache = none := hcache.1 rfl
    refine ⟨hvals, ⟨hvalid, ?_⟩, trivial, rfl, fun _ => hnone, fun c hc => by rw [hnone] at hc; cases hc⟩
    rw [hvals]
    exact Nat.zero_le _
  | succ h => exact (Yields.freeAll _).bind fun _ _ => inv_create L

theorem get_of_inRange {xs : List V} {c : Cached T.Leaf} {i : Nat} (hc : InRange L.Valid L.values xs 0 c)
    (hfirst : c.first ≤ i) (hlast : i < c.last) : T.get c.leaf (i - c.first) = xs[i]? := by
  obtain ⟨hvalid, a, b, hxs, ha, hb⟩ := hc
  have hlt : i - c.first < (L.values c.leaf).length := by omega
  rw [L.get_eq c.leaf _ hvalid hlt, hxs, List.getElem?_append_right (by omega),
    List.getElem?_append_left (by omega), ha, Nat.zero_add]

/-- **Reading**, and what it leaves in the cache. -/
theorem getUncached_spec {t : Tree T} {xs : List V} (ht : t.Inv L maxSize xs) {i : Nat} (hi : i < xs.length) :
    (t.getUncached T i).1 = xs[i]? ∧ (t.getUncached T i).2.Inv L maxSize xs := by
  have ht' := ht
  obtain ⟨h, root, size, cache⟩ := t
  obtain ⟨hvals, hwf, hroot, hsize, hcache⟩ := ht
  cases h with
  | zero =>
    have hxs : L.values root = xs := hvals
    subst hxs
    exact ⟨L.get_eq root i hwf.1 hi, ht'⟩
  | succ h =>
    have hxs : nodeValues L (h + 1) root = xs := hvals
    subst hxs
    obtain ⟨c, hc, hrange, hfirst, hlast⟩ := reaches_bptreeAccess L (h + 1) root i 0 hwf hi
    rw [Nat.zero_add] at hfirst hlast
    have hget : Tree.getUncached T ⟨h + 1, root, size, cache⟩ i =
        (T.get c.leaf (i - c.first), ⟨h + 1, root, size, some c⟩) := by
      unfold Tree.getUncached
      dsimp only
      rw [hc]
    rw [hget]
    refine ⟨get_of_inRange L hrange hfirst hlast, rfl, hwf, hroot, hsize,
      fun h0 => absurd h0 (Nat.succ_ne_zero h), fun c' hc' => ?_⟩
    cases hc'
    exact hrange

theorem get_spec {t : Tree T} {xs : List V} (ht : t.Inv L maxSize xs) {i : Nat} (hi : i < xs.length) :
    (t.get T i).1 = xs[i]? ∧ (t.get T i).2.Inv L maxSize xs := by
  unfold Tree.get
  split
  · rename_i c hc
    split
    · rename_i hin
      exact ⟨get_of_inRange L (ht.cache_ok.2 c hc) hin.1 hin.2, ht⟩
    · exact getUncached_spec L ht hi
  · exact getUncached_spec L ht hi

end Levels

/-! ## Runs -/

inductive Op (V : Type) where
  | insert (n : Nat) (value : V)
  | add (value : V)
  | set (n : Nat) (value : V)
  | erase (n : Nat)
  | clear
  | get (n : Nat)

/-- The operation on a list; `none` where an index is out of range. -/
def Op.onList {V : Type} : Op V → List V → Option (List V)
  | .insert n v, xs => if n ≤ xs.length then some (xs.insertIdx n v) else none
  | .add v, xs => some (xs ++ [v])
  | .set n v, xs => if n < xs.length then some (xs.set n v) else none
  | .erase n, xs => if n < xs.length then some (xs.eraseIdx n) else none
  | .clear, _ => some []
  | .get n, xs => if n < xs.length then some xs else none

def Op.onTree {V : Type} (T : LeafClass V) (maxSize : Nat) : Op V → Tree T → Prog (Tree T)
  | .insert n v, t => Tree.insert T maxSize t (some n) v
  | .add v, t => Tree.insert T maxSize t none v
  | .set n v, t => Tree.set T t n v
  | .erase n, t => Tree.erase T maxSize t n
  | .clear, t => Tree.clear T t
  | .get n, t => pure (t.get T n).2

def runList {V : Type} : List (Op V) → List V → Option (List V)
  | [], xs => some xs
  | op :: ops, xs => (op.onList xs).bind (runList ops)

def runTree {V : Type} (T : LeafClass V) (maxSize : Nat) : List (Op V) → Tree T → Prog (Tree T)
  | [], t => pure t
  | op :: ops, t => do
    let t ← op.onTree T maxSize t
    runTree T maxSize ops t

section Runs

variable {V : Type} {T : LeafClass V} (L : ListLike T) {maxSize : Nat}

theorem inv_step (hmax : 2 ≤ maxSize) {op : Op V} {t : Tree T} {xs ys : List V} (ht : t.Inv L maxSize xs)
    (h : op.onList xs = some ys) : Yields (op.onTree T maxSize t) (·.Inv L maxSize ys) := by
  have hadds := fun v => adds_insertValue L (Nat.one_le_of_lt hmax) v
  cases op with
  | insert n v =>
    obtain ⟨hn, hys⟩ := Option.ite_none_right_eq_some.mp h
    cases hys
    have hins := inv_bptreeInsert L hmax (hadds v) ht (some n) fun i hi => by
      cases hi
      exact ⟨hn, rfl⟩
    rw [splice_some_singleton hn] at hins
    exact hins
  | add v =>
    cases h
    exact inv_bptreeInsert L hmax (hadds v) ht none fun i hi => by cases hi
  | set n v =>
    obtain ⟨hn, hys⟩ := Option.ite_none_right_eq_some.mp h
    cases hys
    exact inv_set L ht hn v
  | erase n =>
    obtain ⟨hn, hys⟩ := Option.ite_none_right_eq_some.mp h
    cases hys
    exact inv_erase L ht hn
  | clear =>
    cases h
    exact inv_clear L ht
  | get n =>
    obtain ⟨hn, hys⟩ := Option.ite_none_right_eq_some.mp h
    cases hys
    exact Yields.pure (get_spec L ht hn).2

theorem inv_run (hmax : 2 ≤ maxSize) : ∀ (ops : List (Op V)) {t : Tree T} {xs ys : List V},
    t.Inv L maxSize xs → runList ops xs = some ys →
    Yields (runTree T maxSize ops t) (·.Inv L maxSize ys)
  | [], t, xs, ys, ht, h => by
    cases h
    exact Yields.pure ht
  | op :: ops, t, xs, ys, ht, h => by
    obtain ⟨zs, hop, hops⟩ := Option.bind_eq_some_iff.mp h
    exact (inv_step L hmax ht hop).bind fun t' ht' => inv_run hmax ops ht' hops

/-- The depths at which the leaves of a node lie. -/
def leafDepths (T : LeafClass V) : (h : Nat) → Node T.Leaf h → List Nat
  | 0, _ => [0]
  | h + 1, n => n.children.flatMap (fun c => (leafDepths T h c).map (· + 1))

theorem leafDepths_eq : ∀ (h : Nat) (n : Node T.Leaf h), ∀ d ∈ leafDepths T h n, d = h
  | 0, _, d, hd => List.mem_singleton.mp hd
  | h + 1, n, d, hd => by
    obtain ⟨c, _, hc⟩ := List.mem_flatMap.mp hd
    obtain ⟨d', hd', rfl⟩ := List.mem_map.mp hc
    rw [leafDepths_eq h c d' hd']

/-- What a tree owes to the list `xs`: it answers as the list does, its leaves have one depth, and it
is well formed down to the leaves, with nothing empty but a root that is a leaf. -/
structure Tree.Denotes (maxSize : Nat) (t : Tree T) (xs : List V) : Prop where
  size_eq : t.size = xs.length
  get_eq : ∀ i, i < xs.length → (t.get T i).1 = xs[i]?
  values_eq : t.values L = xs
  depth_eq : ∀ d ∈ leafDepths T t.height t.root, d = t.height
  wellFormed : WellFormed L maxSize t.height t.root
  root_nonempty : t.height ≠ 0 → xs ≠ []

theorem Tree.Inv.denotes {t : Tree T} {xs : List V} (ht : t.Inv L maxSize xs) : t.Denotes L maxSize xs := by
  refine ⟨ht.size_eq, fun i hi => (get_spec L ht hi).1, ht.values_eq, leafDepths_eq t.height t.root,
    ht.wellFormed, fun h0 => ?_⟩
  obtain ⟨h', root, size, cache⟩ := t
  obtain ⟨rfl, hwf, -, -, -⟩ := ht
  cases h' with
  | zero => exact absurd rfl h0
  | succ h' => exact Inner.Laid.values_ne_nil hwf

/-- **The tree refines the list.**  From the empty tree every sequence of operations that is in range
returns, and leaves a tree that denotes what the operations make of the empty list. -/
theorem denotes_run (hmax : 2 ≤ maxSize) (ops : List (Op V)) (xs : List V)
    (h : runList ops [] = some xs) :
    Yields (Tree.create T >>= runTree T maxSize ops) (·.Denotes L maxSize xs) :=
  (inv_create L).bind fun _ h₀ => (inv_run L hmax ops h₀ h).mono fun _ ht => ht.denotes L

end Runs

/-- Five operations on an integer tree with two elements to a node: the root is split, an element is
inserted into a compact tree, and an erasure goes through the general form. -/
theorem denotes_run_integers : 2 ≤ 2 ∧
    runList [.add 1, .add 2, .add 3, .insert 1 (9 : Int), .erase 0] [] = some [9, 2, 3] ∧
    Yields (Tree.create Leaf.integerClass >>= runTree Leaf.integerClass 2
        [.add 1, .add 2, .add 3, .insert 1 9, .erase 0])
      (·.Denotes Leaf.integerListLike 2 [9, 2, 3]) :=
  ⟨le_rfl, rfl, denotes_run Leaf.integerListLike le_rfl _ _ rfl⟩

end Llbt.BPlusTree
