import Llbt.BPlusTree.Insert

/-!
# Erasure, merging and the collapse of the root

`EraseOutcome` is the contract of `bptree_erase`: the node denotes the list without the element; it
reports size zero exactly when nothing is left of it, and then its parent destroys it; otherwise it
is well formed again and reports its node size.

The merge of two neighbours is correct at every height (`merges_mergeNodes`), an inner node meets
the contract if its children do (`eraseOutcome_inner`), and hence every node does
(`eraseOutcome_bptreeErase`).  `yields_collapse` — the root that is left has no single child.
-/

set_option autoImplicit false

namespace Llbt.BPlusTree

open Ownership Segments

/-- **The contract of `bptree_erase`.**  While a leaf is cached, a node of node size `before` that
had two children is left `deep`: as a root it would not give way to a single leaf. -/
structure EraseOutcome {L C V : Type} (valid : L → Prop) (lvals : L → List V) (ok deep : C → Prop)
    (size : C → Nat) (vals : C → List V) (xs : List V) (off before : Nat) (r : Erased L C) : Prop where
  values_eq : vals r.node = xs
  nothing_left : xs = [] → r.nodeSize = 0 ∧ r.cache = none
  node_ok : xs ≠ [] → ok r.node ∧ r.nodeSize = size r.node ∧ 0 < r.nodeSize
  node_deep : r.cache ≠ none → 2 ≤ before → deep r.node
  cache : ∀ c, r.cache = some c → InRange valid lvals xs off c

/-- The contract of a merge: the left node takes over the content of the right one. -/
def Merges {C V : Type} (maxSize : Nat) (ok : C → Prop) (size : C → Nat) (vals : C → List V)
    (mergeChild : C → C → Int → Prog (C × C)) : Prop :=
  ∀ c s adj, ok c → ok s → vals c ≠ [] → adj = -((vals c).length : Int) → size c + size s ≤ maxSize →
    Yields (mergeChild c s adj) (fun p => ok p.1 ∧ vals p.1 = vals c ++ vals s ∧
      size p.1 = size c + size s)

/-! ## One level -/

namespace Inner

section Level

variable {C V : Type} {maxSize full : Nat} {ok : C → Prop} {compact : C → Bool} {vals : C → List V}
  {n : Inner C} {cs pre post : List C} {c c' s : C} {sz : Nat} {offsets : List Nat}

theorem wellLaid_general (hne : cs ≠ []) (hlen : cs.length ≤ maxSize) (hok : ∀ c ∈ cs, ok c)
    (hvals : ∀ c ∈ cs, vals c ≠ []) (hsz : sz = span (len vals) cs)
    (hloc : 0 :: offsets = starts (len vals) 0 cs) :
    WellLaid maxSize full ok compact vals (.general offsets) cs sz :=
  ⟨hne, hlen, hok, hvals, hsz, hloc, fun _ he => by cases he⟩

theorem holds_passOffset (h : n.Holds (.general offsets) cs sz) (k : Nat) :
    Yields (n.passOffset k) (·.Holds (.general (if k + 1 < offsets.length then
      offsets.set k (offsets.getD (k + 1) 0) else offsets)) cs sz) := by
  unfold passOffset
  cases hform : n.form with
  | compact e =>
    have hlay := h.layout
    rw [hform] at hlay
    cases hlay
  | general r offsets' =>
    have hlay := h.layout
    rw [hform] at hlay
    cases hlay
    dsimp only
    split
    · exact holds_setOffsets h _
    · exact Yields.pure h

theorem yields_merge {n s : Inner C} {adj : Int} (hn : n.Laid maxSize full ok compact vals)
    (hs : s.Laid maxSize full ok compact vals) (hadj : adj = -((n.children.flatMap vals).length : Int))
    (hlen : n.children.length + s.children.length ≤ maxSize) :
    Yields (n.merge s adj) (fun p => p.1.Laid maxSize full ok compact vals ∧
      p.1.children.flatMap vals = n.children.flatMap vals ++ s.children.flatMap vals ∧
      p.1.children.length = n.children.length + s.children.length) := by
  have hwn := hn.ensured
  have hws := hs.ensured
  obtain ⟨offsets, hgen⟩ := n.form.layout.ensured_eq n.children.length
  refine (holds_ensureOffsets n.holds_self).bind fun n₁ h₁ => ?_
  refine (holds_ensureOffsets s.holds_self).bind fun s₁ hs₁ => ?_
  refine (holds_shrink h₁).bind fun n₂ h₂ => ?_
  refine (holds_move hs₁ h₂ 0 adj).bind fun p hp => ?_
  obtain ⟨hp₁, hp₂⟩ := hp
  refine (holds_setTreeSize hp₂ _).bind fun n₃ h₃ => Yields.pure ?_
  rw [hgen] at hwn h₃
  have hfst : (movedChildren (s.form.layout.ensured s.children.length) s.children 0 adj).map Prod.fst =
      s.children := by
    have hloc : Located (len vals) _ ([] ++ s.children) := hws.located
    exact map_fst_movedChildren hloc adj
  rw [hfst, hp₂.treeSize, hp₁.treeSize] at h₃
  have hadj' : adj = -(span (len vals) n.children : Int) := by rw [hadj, span_len]
  have hwell : WellLaid maxSize full ok compact vals _ (n.children ++ s.children) (n.treeSize + s.treeSize) :=
    wellLaid_general (by simp [hn.nonempty]) (by simpa using hlen)
      (fun c hc => (List.mem_append.mp hc).elim (hn.child_ok c) (hs.child_ok c))
      (fun c hc => (List.mem_append.mp hc).elim (hn.child_nonempty c) (hs.child_nonempty c))
      (by rw [span_append, hn.size_eq, hs.size_eq])
      (located_moved_behind hwn.located hws.located hn.size_pos hadj')
  refine ⟨h₃.laid hwell, ?_, ?_⟩
  · rw [h₃.children, List.flatMap_append]
  · rw [h₃.children, List.length_append]

theorem laid_takeOver {ref : C → Ref} {blocks : C → List Ref} {size : C → Nat}
    {mergeChild : C → C → Int → Prog (C × C)} (hmerge : Merges maxSize ok size vals mergeChild)
    (hn : n.Holds (.general offsets) (pre ++ c :: s :: post) sz)
    (hloc : 0 :: offsets = starts (len vals) 0 (pre ++ c :: s :: post))
    (hsz : sz = span (len vals) (pre ++ c :: s :: post))
    (hlen : (pre ++ c :: s :: post).length ≤ maxSize)
    (hok : ∀ x ∈ pre ++ c :: s :: post, ok x) (hne : ∀ x ∈ pre ++ c :: s :: post, vals x ≠ [])
    (hboth : size c + size s ≤ maxSize) :
    Yields (n.takeOver ref blocks mergeChild pre.length c s) (fun n' =>
      n'.Laid maxSize full ok compact vals ∧
      (∃ m, n'.children = pre ++ m :: post ∧ size m = size c + size s) ∧
      n'.children.flatMap vals = (pre ++ c :: s :: post).flatMap vals) := by
  have hlocated : Located (len vals) (.general offsets) (pre ++ c :: s :: post) := hloc
  have hlocated' : Located (len vals) (.general offsets) ((pre ++ [c]) ++ s :: post) := by
    rw [← List.append_cons]
    exact hloc
  have hoffset := hlocated'.offset
  rw [List.length_append, List.length_singleton, span_append, span_cons, span_nil] at hoffset
  have hadj : (n.childOffset pre.length : Int) - n.childOffset (pre.length + 1) =
      -((vals c).length : Int) := by
    rw [hn.childOffset_eq, hn.childOffset_eq, hlocated.offset, hoffset]
    push_cast
    ring
  refine (holds_passOffset hn pre.length).bind fun n₁ h₁ => ?_
  refine (hmerge c s _ (hok c (by simp)) (hok s (by simp)) (hne c (by simp)) hadj hboth).bind fun p hp => ?_
  obtain ⟨hokp, hvalsp, hsizep⟩ := hp
  refine (holds_setChild ref h₁ (by simp) p.1).bind fun n₂ h₂ => ?_
  rw [set_mid] at h₂
  refine (holds_setChild ref h₂ (by simp) p.2).bind fun n₃ h₃ => ?_
  refine (holds_eraseAndDestroyBpNode blocks h₃ (by simp)).mono fun n₄ h₄ => ?_
  rw [eraseIdx_set_behind] at h₄
  have hlenp : len vals p.1 = len vals c + len vals s := by rw [len, hvalsp, List.length_append]
  have hmem : ∀ x ∈ pre ++ p.1 :: post, x = p.1 ∨ x ∈ pre ++ c :: s :: post := by
    intro x hx
    simp only [List.mem_append, List.mem_cons] at hx ⊢
    tauto
  have hokAll : ∀ x ∈ pre ++ p.1 :: post, ok x := by
    intro x hx
    rcases hmem x hx with rfl | hx
    · exact hokp
    · exact hok x hx
  have hneAll : ∀ x ∈ pre ++ p.1 :: post, vals x ≠ [] := by
    intro x hx
    rcases hmem x hx with rfl | hx
    · simp [hvalsp, hne c (by simp)]
    · exact hne x hx
  have hlen' : (pre ++ p.1 :: post).length ≤ maxSize := by
    simp only [List.length_append, List.length_cons] at hlen ⊢
    omega
  have hsz' : sz = span (len vals) (pre ++ p.1 :: post) := by
    rw [hsz]
    simp only [span_append, span_cons, hlenp]
    omega
  refine ⟨h₄.laid (wellLaid_general (by simp) hlen' hokAll hneAll hsz' (dropMerged hloc hlenp rfl)),
    ⟨p.1, h₄.children, hsizep⟩, ?_⟩
  rw [h₄.children]
  simp [hvalsp]

/-- A root like `n` does not give way to a single leaf. -/
def Deep (leafChild : Bool) (deep : C → Prop) (n : Inner C) : Prop :=
  2 ≤ n.children.length ∨ ∃ c, n.children = [c] ∧ leafChild = false ∧ deep c

/-- **Erasure at an inner node, after the child has been erased from.** -/
theorem eraseOutcome_rebalance {L : Type} {valid : L → Prop} {lvals : L → List V} {ref : C → Ref}
    {blocks : C → List Ref} {size : C → Nat} {mergeChild : C → C → Int → Prog (C × C)} {leafChild : Bool}
    {deep : C → Prop} {r : Erased L C} {off : Nat} (hmerge : Merges maxSize ok size vals mergeChild)
    (hpos : ∀ c, ok c → vals c ≠ [] → 0 < size c)
    (hdeep : ∀ c, leafChild = false → 2 ≤ size c → deep c)
    (hn : n.Holds (.general offsets) (pre ++ r.node :: post) sz)
    (hloc : 0 :: offsets = starts (len vals) 0 (pre ++ r.node :: post))
    (hsz : sz = span (len vals) (pre ++ r.node :: post))
    (hlen : (pre ++ r.node :: post).length ≤ maxSize)
    (hok : ∀ c ∈ pre ++ post, ok c) (hne : ∀ c ∈ pre ++ post, vals c ≠ [])
    (hempty : vals r.node = [] → r.nodeSize = 0 ∧ r.cache = none)
    (hnode : vals r.node ≠ [] → ok r.node ∧ r.nodeSize = size r.node ∧ 0 < r.nodeSize)
    (hcache : ∀ c, r.cache = some c →
      InRange valid lvals ((pre ++ r.node :: post).flatMap vals) off c) :
    Yields (n.rebalance maxSize ref blocks size mergeChild leafChild pre.length r)
      (EraseOutcome valid lvals (·.Laid maxSize full ok compact vals) (Deep leafChild deep)
        (·.children.length) (·.children.flatMap vals) ((pre ++ r.node :: post).flatMap vals) off
        (pre ++ r.node :: post).length) := by
  unfold rebalance
  dsimp only
  rw [hn.children]
  by_cases hvals : vals r.node = []
  · -- The child is empty.
    have hzero : len vals r.node = 0 := by rw [len, hvals]; rfl
    have hxs : (pre ++ r.node :: post).flatMap vals = (pre ++ post).flatMap vals := by simp [hvals]
    obtain ⟨hnodeSize, hnocache⟩ := hempty hvals
    rw [if_pos hnodeSize]
    split
    · rename_i hone
      have hboth : pre ++ post = [] := by
        rw [← List.length_eq_zero_iff]
        simp only [List.length_append, List.length_cons] at hone ⊢
        omega
      refine Yields.pure ⟨by rw [hn.children], fun _ => ⟨rfl, hnocache⟩, fun h => ?_,
        fun h => absurd hnocache h, hcache⟩
      rw [hxs, hboth] at h
      exact absurd rfl h
    · rename_i hmore
      have hboth : pre ++ post ≠ [] := by
        intro h
        rw [List.append_eq_nil_iff] at h
        rw [h.1, h.2] at hmore
        exact hmore rfl
      refine (holds_eraseAndDestroyBpNode blocks hn (by simp)).bind fun n' h' => Yields.pure ?_
      rw [eraseIdx_mid] at h'
      have hwell : WellLaid maxSize full ok compact vals _ (pre ++ post) sz :=
        wellLaid_general hboth (by simp at hlen ⊢; omega) hok hne
          (by rw [hsz]; simp [hvals]) (dropEmpty hloc hzero hboth)
      have hlaid := h'.laid hwell
      have hleft := hlaid.size_pos
      rw [span_len] at hleft
      have hcount : n'.children.length = (pre ++ r.node :: post).length - 1 := by
        rw [h'.children]
        simp
      refine ⟨by rw [h'.children, hxs], fun h => ?_, fun _ => ⟨hlaid, hcount.symm, ?_⟩,
        fun h => absurd hnocache h, hcache⟩
      · rw [hxs, ← h'.children] at h
        rw [h] at hleft
        exact absurd hleft (lt_irrefl 0)
      · rw [← hcount]
        exact List.length_pos_iff.mpr hlaid.nonempty
  · -- Something is left of the child.
    obtain ⟨hokr, hsizer, hposr⟩ := hnode hvals
    have hokAll : ∀ x ∈ pre ++ r.node :: post, ok x := by
      intro x hx
      simp only [List.mem_append, List.mem_cons] at hx hok
      rcases hx with hx | rfl | hx
      · exact hok x (.inl hx)
      · exact hokr
      · exact hok x (.inr hx)
    have hneAll : ∀ x ∈ pre ++ r.node :: post, vals x ≠ [] := by
      intro x hx
      simp only [List.mem_append, List.mem_cons] at hx hne
      rcases hx with hx | rfl | hx
      · exact hne x (.inl hx)
      · exact hvals
      · exact hne x (.inr hx)
    have hxs : (pre ++ r.node :: post).flatMap vals ≠ [] := by simp [hvals]
    have hcount : 0 < (pre ++ r.node :: post).length := by simp
    -- The node as it is meets the contract.
    have hkeep : EraseOutcome valid lvals (·.Laid maxSize full ok compact vals) (Deep leafChild deep)
        (·.children.length) (·.children.flatMap vals) ((pre ++ r.node :: post).flatMap vals) off
        (pre ++ r.node :: post).length ⟨n, (pre ++ r.node :: post).length, r.cache⟩ := by
      have hwell : WellLaid maxSize full ok compact vals _ (pre ++ r.node :: post) sz :=
        wellLaid_general (by simp) hlen hokAll hneAll hsz hloc
      exact ⟨by rw [hn.children], fun h => absurd h hxs,
        fun _ => ⟨hn.laid hwell, by rw [hn.children], hcount⟩,
        fun _ htwo => .inl (by rw [hn.children]; exact htwo), hcache⟩
    rw [if_neg (Nat.pos_iff_ne_zero.mp hposr)]
    split
    · rename_i hsmall
      obtain ⟨-, hright⟩ := hsmall
      obtain ⟨s, post', rfl⟩ : ∃ s post', post = s :: post' := by
        cases post with
        | nil =>
          simp only [List.length_append, List.length_cons, List.length_nil] at hright
          omega
        | cons s post' => exact ⟨s, post', rfl⟩
      have hc : n.children[pre.length]? = some r.node := by rw [hn.children, getElem?_mid]
      have hcut : ∀ x : C, pre ++ x :: s :: post' = (pre ++ [x]) ++ s :: post' := by simp
      have hs : n.children[pre.length + 1]? = some s := by
        have hmid := getElem?_mid (pre ++ [r.node]) post' s
        rw [List.length_append, List.length_singleton, ← hcut] at hmid
        rw [hn.children, hmid]
      refine (yields_child hc).bind ?_
      rintro _ rfl
      refine (yields_child hs).bind ?_
      rintro _ rfl
      split
      · rename_i hfits
        have hmerged := @laid_takeOver C V maxSize full ok compact vals n pre post' r.node s sz offsets ref blocks
          size mergeChild hmerge hn hloc hsz hlen hokAll hneAll (by omega)
        refine hmerged.bind fun n' hn' => Yields.pure ?_
        obtain ⟨hlaid, ⟨m, hchildren, hsizem⟩, hvals'⟩ := hn'
        refine ⟨hvals', fun h => absurd h hxs, fun _ => ⟨hlaid, ?_, ?_⟩, fun hcached _ => ?_,
          fun cache hc => ?_⟩
        · rw [hchildren]
          simp
        · simp
        · -- Inner nodes were merged, and the merged one has two children at least.
          have hinner : leafChild = false := by
            cases leafChild with
            | true => exact absurd rfl hcached
            | false => rfl
          have hm : 2 ≤ size m := by
            have := hpos s (hokAll s (by simp)) (hneAll s (by simp))
            omega
          by_cases hother : pre ++ post' = []
          · rw [List.append_eq_nil_iff] at hother
            exact .inr ⟨m, by rw [hchildren, hother.1, hother.2]; rfl, hinner, hdeep m hinner hm⟩
          · have hlenOther := List.length_pos_iff.mpr hother
            refine .inl ?_
            rw [hchildren]
            simp only [List.length_append, List.length_cons] at hlenOther ⊢
            omega
        · cases leafChild with
          | true => cases hc
          | false => exact hcache cache hc
      · exact Yields.pure hkeep
    · exact Yields.pure hkeep

theorem eraseIdx_mid_list {i : Nat} (a x b : List V) (hle : a.length ≤ i) (hlt : i < a.length + x.length) :
    (a ++ (x ++ b)).eraseIdx i = a ++ (x.eraseIdx (i - a.length) ++ b) := by
  rw [List.eraseIdx_append_of_length_le hle, List.eraseIdx_append_of_lt_length (by omega)]

theorem eraseOutcome_inner {L : Type} {valid : L → Prop} {lvals : L → List V} {ref : C → Ref}
    {blocks : C → List Ref} {size : C → Nat} {eraseChild : C → Nat → Nat → Prog (Erased L C)}
    {mergeChild : C → C → Int → Prog (C × C)} {leafChild : Bool} {deep : C → Prop}
    (hmerge : Merges maxSize ok size vals mergeChild) (hpos : ∀ c, ok c → vals c ≠ [] → 0 < size c)
    (hdeep : ∀ c, leafChild = false → 2 ≤ size c → deep c)
    (herase : ∀ c i off, ok c → i < (vals c).length → Yields (eraseChild c i off)
      (EraseOutcome valid lvals ok deep size vals ((vals c).eraseIdx i) off (size c)))
    (hn : n.Laid maxSize full ok compact vals) {i : Nat} (off : Nat)
    (hi : i < (n.children.flatMap vals).length) :
    Yields (n.bptreeErase maxSize ref blocks size eraseChild mergeChild leafChild i off)
      (EraseOutcome valid lvals (·.Laid maxSize full ok compact vals) (Deep leafChild deep)
        (·.children.length) (·.children.flatMap vals) ((n.children.flatMap vals).eraseIdx i) off
        n.children.length) := by
  have hw := hn.ensured
  obtain ⟨offsets, hgen⟩ := n.form.layout.ensured_eq n.children.length
  refine (holds_ensureOffsets n.holds_self).bind fun n₁ h₁ => ?_
  rw [hgen] at hw h₁
  obtain ⟨pre, c, post, hcs, hle, hlt, hindex⟩ :=
    hw.located.lookup hw.child_pos (by rw [span_len]; exact hi)
  rw [hcs] at h₁ hw ⊢
  rw [span_len] at hle hlt
  dsimp only
  rw [h₁.childIndex_eq, hindex, h₁.childOffset_eq, hw.located.offset, span_len]
  have hc : n₁.children[pre.length]? = some c := by rw [h₁.children, getElem?_mid]
  refine (yields_child hc).bind ?_
  rintro _ rfl
  have hin : i - (pre.flatMap vals).length < (vals c).length := Nat.sub_lt_left_of_lt_add hle hlt
  refine (herase c _ _ (hw.child_ok c (by simp)) hin).bind fun r hr => ?_
  refine (holds_setChild ref h₁ (by simp) r.node).bind fun n₂ h₂ => ?_
  rw [set_mid] at h₂
  refine (holds_setTreeSize h₂ _).bind fun n₃ h₃ => ?_
  refine (holds_adjustOffsets h₃ _ _).bind fun n₄ h₄ => ?_
  have hlenr : len vals c = len vals r.node + 1 := by
    have hdrop := List.length_eraseIdx_of_lt hin
    rw [← hr.values_eq] at hdrop
    simp only [len]
    omega
  have hlist : ((pre ++ c :: post).flatMap vals).eraseIdx i = (pre ++ r.node :: post).flatMap vals := by
    rw [List.flatMap_append, List.flatMap_cons, eraseIdx_mid_list _ _ _ hle hlt, ← hr.values_eq,
      List.flatMap_append, List.flatMap_cons]
  have hcountEq : n.children.length = (pre ++ r.node :: post).length := by
    rw [hcs]
    simp
  rw [hlist, ← hcs, hcountEq]
  rw [h₂.treeSize] at h₄
  have hother : ∀ x ∈ pre ++ post, x ∈ pre ++ c :: post := by
    intro x hx
    simp only [List.mem_append, List.mem_cons] at hx ⊢
    tauto
  refine eraseOutcome_rebalance hmerge hpos hdeep h₄ (resize_pred hw.located hlenr) ?_ ?_
    (fun x hx => hw.child_ok x (hother x hx)) (fun x hx => hw.child_nonempty x (hother x hx))
    (fun h => hr.nothing_left (by rw [← hr.values_eq, h])) (fun h => hr.node_ok (by rw [← hr.values_eq]; exact h))
    (fun cache hcache => ?_)
  · rw [hw.size_eq]
    simp only [span_append, span_cons]
    omega
  · simpa using hw.length_le
  · have hrange := (hr.cache cache hcache).append (pre.flatMap vals) (post.flatMap vals)
    rw [← hr.values_eq] at hrange
    simpa using hrange

end Level

end Inner

/-! ## All levels -/

section Levels

variable {V : Type} {T : LeafClass V} (L : ListLike T) {maxSize : Nat}

theorem merges_mergeNodes : ∀ h : Nat,
    Merges maxSize (WellFormed L maxSize h) (nodeSize T h) (nodeValues L h) (mergeNodes T h)
  | 0, l, s, adj, hl, hs, _, _, hlen => by
    refine (L.move s l 0 hs.1 hl.1 (Nat.zero_le _)).bind fun p hp => Yields.pure ?_
    obtain ⟨-, -, hvalid, hvals⟩ := hp
    rw [List.drop_zero] at hvals
    have hsum : (L.values p.2).length = T.size l + T.size s := by
      rw [hvals, List.length_append, ← L.size_eq l hl.1, ← L.size_eq s hs.1]
    exact ⟨⟨hvalid, hsum.le.trans hlen⟩, hvals, (L.size_eq p.2 hvalid).trans hsum⟩
  | h + 1, n, s, adj, hn, hs, _, hadj, hlen => Inner.yields_merge hn hs hadj hlen

/-- A root like `n` does not give way to a single leaf. -/
def DeepNode (T : LeafClass V) : (h : Nat) → Node T.Leaf h → Prop
  | 0, _ => True
  | h + 1, n => Inner.Deep (h == 0) (DeepNode T h) n

theorem deepNode_of_two_le : ∀ (h : Nat) (n : Node T.Leaf h), h ≠ 0 → 2 ≤ nodeSize T h n → DeepNode T h n
  | 0, _, h0, _ => absurd rfl h0
  | _ + 1, _, _, htwo => .inl htwo

theorem nodeSize_pos : ∀ (h : Nat) (n : Node T.Leaf h), WellFormed L maxSize h n → nodeValues L h n ≠ [] →
    0 < nodeSize T h n
  | 0, l, hl, hne => by
    change 0 < T.size l
    rw [L.size_eq l hl.1]
    exact List.length_pos_iff.mpr hne
  | _ + 1, n, hn, _ => List.length_pos_iff.mpr hn.nonempty

theorem eraseOutcome_leaf (l : T.Leaf) (i off : Nat) (hl : WellFormed L maxSize 0 l)
    (hi : i < (L.values l).length) :
    Yields (bptreeErase T maxSize 0 l i off)
      (EraseOutcome L.Valid L.values (WellFormed L maxSize 0) (DeepNode T 0) T.size L.values
        ((L.values l).eraseIdx i) off (T.size l)) := by
  refine (L.erase l i hl.1 hi).bind fun l' hl' => Yields.pure ?_
  obtain ⟨hvalid, hvals⟩ := hl'
  have hsize := L.size_eq l' hvalid
  have hlen : (L.values l').length = (L.values l).length - 1 := by
    rw [hvals, List.length_eraseIdx_of_lt hi]
  refine ⟨hvals, fun h => ?_, fun h => ⟨⟨hvalid, ?_⟩, rfl, ?_⟩, fun _ _ => trivial, fun c hc => ?_⟩
  · have hzero : T.size l' = 0 := by
      rw [hsize, hvals, h]
      rfl
    exact ⟨hzero, if_pos hzero⟩
  · exact hlen.le.trans ((Nat.sub_le _ _).trans hl.2)
  · change 0 < T.size l'
    rw [hsize, hvals]
    exact List.length_pos_iff.mpr h
  · dsimp only at hc
    split at hc
    · cases hc
    · cases hc
      have hend : off + T.size l - 1 = off + (L.values l').length := by
        rw [L.size_eq l hl.1]
        omega
      have hwhole : (L.values l).eraseIdx i = [] ++ (L.values l' ++ []) := by
        rw [hvals, List.nil_append, List.append_nil]
      exact ⟨hvalid, [], [], hwhole, rfl, hend⟩

/-- **Erasure at any node** meets the contract. -/
theorem eraseOutcome_bptreeErase : ∀ (h : Nat) (n : Node T.Leaf h) (i off : Nat),
    WellFormed L maxSize h n → i < (nodeValues L h n).length →
    Yields (bptreeErase T maxSize h n i off)
      (EraseOutcome L.Valid L.values (WellFormed L maxSize h) (DeepNode T h) (nodeSize T h)
        (nodeValues L h) ((nodeValues L h n).eraseIdx i) off (nodeSize T h n))
  | 0, l, i, off, hl, hi => eraseOutcome_leaf L l i off hl hi
  | h + 1, _, _, off, hn, hi =>
    Inner.eraseOutcome_inner (merges_mergeNodes L h) (fun c => nodeSize_pos L h c)
      (fun c hleaf => deepNode_of_two_le h c (beq_eq_false_iff_ne.mp hleaf))
      (fun c i' off' hc hi' => eraseOutcome_bptreeErase h c i' off' hc hi') hn off hi

/-- A root that is an inner node has at least two children. -/
def RootOk (T : LeafClass V) : (h : Nat) → Node T.Leaf h → Prop
  | 0, _ => True
  | _ + 1, n => 2 ≤ n.children.length

theorem yields_dropRoot (h : Nat) (n : Inner (Node T.Leaf h)) :
    Yields (dropRoot T h n) (fun _ => True) := by
  refine (Yields.copyOnWrite n.ref).bind fun r _ => ?_
  split
  · exact Yields.freeAll _
  · exact Yields.freeAll _

theorem yields_collapse : ∀ (h : Nat) (n : Node T.Leaf h) (rootSize : Nat), WellFormed L maxSize h n →
    rootSize = nodeSize T h n →
    Yields (collapse T h n rootSize) (fun p => WellFormed L maxSize p.1 p.2 ∧
      nodeValues L p.1 p.2 = nodeValues L h n ∧ RootOk T p.1 p.2 ∧
      (h ≠ 0 → DeepNode T h n → p.1 ≠ 0))
  | 0, l, _, hl, _ => Yields.pure ⟨hl, rfl, trivial, fun h0 => absurd rfl h0⟩
  | h + 1, n, rootSize, hn, hsize => by
    have hlen : rootSize = n.children.length := hsize
    unfold collapse
    split
    · rename_i hone
      obtain ⟨c, hc⟩ := List.length_eq_one_iff.mp (hlen.symm.trans hone)
      rw [hc]
      dsimp only
      refine (yields_dropRoot h n).bind fun _ _ => ?_
      have hcw : WellFormed L maxSize h c := hn.child_ok c (by simp [hc])
      refine (yields_collapse h c _ hcw rfl).mono fun p hp => ?_
      obtain ⟨hpw, hvals, hroot, hdeep⟩ := hp
      refine ⟨hpw, ?_, hroot, fun _ hn' => ?_⟩
      · rw [hvals]
        change _ = n.children.flatMap (nodeValues L h)
        simp [hc]
      · rcases hn' with htwo | ⟨c', hc', hh, hdeepc⟩
        · rw [hc] at htwo
          simp at htwo
        · rw [hc] at hc'
          cases hc'
          exact hdeep (beq_eq_false_iff_ne.mp hh) hdeepc
    · rename_i hmany
      have hpos : 0 < n.children.length := List.length_pos_iff.mpr hn.nonempty
      refine Yields.pure ⟨hn, rfl, ?_, fun h0 _ => h0⟩
      change 2 ≤ n.children.length
      omega

end Levels

end Llbt.BPlusTree
