import Llbt.BPlusTree.Offsets

/-!
# Well-formed trees

`ListLike T` says that a leaf class behaves as a list.  Over such leaves a node denotes the list
`nodeValues`, and `WellFormed` is the invariant of `BPlusTreeInner::verify` together with the size
limits: no node is empty or larger than `LLBT_MAX_BPNODE_SIZE` (`maxSize`), the stored tree size
and the offsets agree with the children, and a node in compact form has only compact children, all
but the last of them full.

The invariant of one level is `WellLaid`, stated over what the children are known to satisfy; the
lemmas `WellLaid.resize`, `.insertSibling`, `.keepFirst`, ... say which edits of a level keep it.
-/

set_option autoImplicit false

namespace Llbt.BPlusTree

open Ownership Segments

/-- A leaf class that behaves as a list. -/
structure ListLike {V : Type} (T : LeafClass V) where
  Valid : T.Leaf → Prop
  values : T.Leaf → List V
  size_eq : ∀ l, Valid l → T.size l = (values l).length
  get_eq : ∀ l i, Valid l → i < (values l).length → T.get l i = (values l)[i]?
  create : Yields T.create (fun l => Valid l ∧ values l = [])
  insert : ∀ l i v, Valid l → i ≤ (values l).length →
    Yields (T.insert l i v) (fun l' => Valid l' ∧ values l' = (values l).insertIdx i v)
  set : ∀ l i v, Valid l → i < (values l).length →
    Yields (T.set l i v) (fun l' => Valid l' ∧ values l' = (values l).set i v)
  erase : ∀ l i, Valid l → i < (values l).length →
    Yields (T.erase l i) (fun l' => Valid l' ∧ values l' = (values l).eraseIdx i)
  clear : ∀ l, Valid l → Yields (T.clear l) (fun l' => Valid l' ∧ values l' = [])
  move : ∀ src dst i, Valid src → Valid dst → i ≤ (values src).length →
    Yields (T.move src dst i) (fun p => Valid p.1 ∧ values p.1 = (values src).take i ∧
      Valid p.2 ∧ values p.2 = values dst ++ (values src).drop i)

/-! ## One level -/

section Level

variable {C V : Type}

/-- The lengths of the lists that the children denote. -/
abbrev len (vals : C → List V) : C → Nat := fun c => (vals c).length

theorem span_len (vals : C → List V) (cs : List C) :
    span (len vals) cs = (cs.flatMap vals).length := by
  rw [List.length_flatMap]
  rfl

/-- The invariant of an inner node over children that satisfy `ok`: `full` is the size of a
complete child, `compact` tells which children are in compact form. -/
structure WellLaid (maxSize full : Nat) (ok : C → Prop) (compact : C → Bool) (vals : C → List V)
    (lay : Layout) (cs : List C) (sz : Nat) : Prop where
  nonempty : cs ≠ []
  length_le : cs.length ≤ maxSize
  child_ok : ∀ c ∈ cs, ok c
  child_nonempty : ∀ c ∈ cs, vals c ≠ []
  size_eq : sz = span (len vals) cs
  located : Located (len vals) lay cs
  compact_form : ∀ e, lay = .compact e → e = full ∧ ∀ c ∈ cs, compact c = true

variable {maxSize full : Nat} {ok : C → Prop} {compact : C → Bool} {vals : C → List V}
  {lay : Layout} {cs pre post : List C} {c c' s : C} {sz : Nat}

theorem WellLaid.child_pos (h : WellLaid maxSize full ok compact vals lay cs sz) :
    ∀ c ∈ cs, 0 < len vals c := fun c hc => List.length_pos_iff.mpr (h.child_nonempty c hc)

theorem WellLaid.size_pos (h : WellLaid maxSize full ok compact vals lay cs sz) :
    0 < span (len vals) cs := span_pos _ h.child_pos h.nonempty

theorem WellLaid.ensured (h : WellLaid maxSize full ok compact vals lay cs sz) :
    WellLaid maxSize full ok compact vals (lay.ensured cs.length) cs sz := by
  refine { h with located := h.located.ensured h.nonempty, compact_form := ?_ }
  intro e he
  obtain ⟨offsets, hgen⟩ := lay.ensured_eq cs.length
  rw [hgen] at he
  cases he

theorem map_eq_of_forall₂ {α β : Type} {R : α → α → Prop} {f : α → β} (hR : ∀ a b, R a b → f b = f a) {as bs : List α}
    (h : List.Forall₂ R as bs) : bs.map f = as.map f := by
  induction h with
  | nil => rfl
  | cons hab _ ih => rw [List.map_cons, List.map_cons, hR _ _ hab, ih]

theorem exists_of_mem_forall₂ {α : Type} {R : α → α → Prop} {as bs : List α} (h : List.Forall₂ R as bs) :
    ∀ b ∈ bs, ∃ a ∈ as, R a b := by
  induction h with
  | nil => exact fun b hb => absurd hb List.not_mem_nil
  | cons hab _ ih =>
    intro b hb
    rcases List.mem_cons.mp hb with rfl | hb
    · exact ⟨_, List.mem_cons_self, hab⟩
    · obtain ⟨a, ha, hR⟩ := ih b hb
      exact ⟨a, List.mem_cons_of_mem _ ha, hR⟩

theorem WellLaid.of_forall₂ {cs' : List C} (h : WellLaid maxSize full ok compact vals lay cs sz)
    (hcs : List.Forall₂ (fun c c' => ok c' ∧ len vals c' = len vals c ∧ compact c' = compact c) cs cs') :
    WellLaid maxSize full ok compact vals lay cs' sz := by
  have hmap := map_eq_of_forall₂ (f := len vals) (fun _ _ hc => hc.2.1) hcs
  have hmem := exists_of_mem_forall₂ hcs
  refine ⟨?_, hcs.length_eq.symm.le.trans h.length_le, fun c' hc' => ?_, fun c' hc' => ?_, ?_, h.located.of_map_eq hmap,
    fun e he => ?_⟩
  · rw [← List.length_pos_iff, ← hcs.length_eq]
    exact List.length_pos_iff.mpr h.nonempty
  · obtain ⟨c, -, hok, -⟩ := hmem c' hc'
    exact hok
  · obtain ⟨c, hc, -, hlen, -⟩ := hmem c' hc'
    have hpos := h.child_pos c hc
    rw [← hlen] at hpos
    exact List.length_pos_iff.mp hpos
  · rw [h.size_eq, span, span, hmap]
  · obtain ⟨hfull, hall⟩ := h.compact_form e he
    refine ⟨hfull, fun c' hc' => ?_⟩
    obtain ⟨c, hc, -, -, hcompact⟩ := hmem c' hc'
    exact hcompact.trans (hall c hc)

theorem WellLaid.replaceSame (h : WellLaid maxSize full ok compact vals lay (pre ++ c :: post) sz)
    (hok : ok c') (hlen : len vals c' = len vals c) (hcompact : compact c' = compact c) :
    WellLaid maxSize full ok compact vals lay (pre ++ c' :: post) sz := by
  have hsame : ∀ {xs : List C}, (∀ x ∈ xs, x ∈ pre ++ c :: post) →
      List.Forall₂ (fun c c' => ok c' ∧ len vals c' = len vals c ∧ compact c' = compact c) xs xs :=
    fun hxs => List.forall₂_same.mpr fun x hx => ⟨h.child_ok x (hxs x hx), rfl, rfl⟩
  refine h.of_forall₂ (List.rel_append (hsame fun x hx => ?_) (.cons ⟨hok, hlen, hcompact⟩ (hsame fun x hx => ?_)))
  · exact List.mem_append_left _ hx
  · exact List.mem_append_right _ (List.mem_cons_of_mem c hx)

theorem forall_mem_mid {P : C → Prop} (h : ∀ x ∈ pre ++ c :: post, P x) (hc' : P c') :
    ∀ x ∈ pre ++ c' :: post, P x := by
  intro x hx
  simp only [List.mem_append, List.mem_cons] at hx
  rcases hx with hx | rfl | hx
  · exact h x (by simp [hx])
  · exact hc'
  · exact h x (by simp [hx])

theorem forall_mem_mid_two {P : C → Prop} (h : ∀ x ∈ pre ++ c :: post, P x) (hc' : P c') (hs : P s) :
    ∀ x ∈ pre ++ c' :: s :: post, P x := by
  intro x hx
  simp only [List.mem_append, List.mem_cons] at hx
  rcases hx with hx | rfl | rfl | hx
  · exact h x (by simp [hx])
  · exact hc'
  · exact hs
  · exact h x (by simp [hx])

theorem dropLast_concat_equal {e : Nat} {size : C → Nat} (h : ∀ x ∈ (pre ++ [c]).dropLast, size x = e) :
    ∀ x ∈ pre, size x = e := by
  rw [List.dropLast_concat] at h
  exact h

theorem Located.replaceLast {size : C → Nat} (h : Located size lay (pre ++ [c]))
    (hc' : ∀ e, lay = .compact e → size c' ≤ e) : Located size lay (pre ++ [c']) := by
  cases lay with
  | general offsets =>
    change 0 :: offsets = _
    rw [show 0 :: offsets = _ from h, starts_append, starts_append]
    rfl
  | compact e =>
    obtain ⟨hpos, hequal, hbound⟩ := h
    refine ⟨hpos, ?_, ?_⟩
    · rw [List.dropLast_concat] at hequal ⊢
      exact hequal
    · exact forall_mem_mid hbound (hc' e rfl)

theorem Located.appendCompact {size : C → Nat} {e : Nat} (h : Located size (.compact e) (pre ++ [c]))
    (hc' : size c' = e) (hs : size s ≤ e) : Located size (.compact e) (pre ++ [c', s]) := by
  obtain ⟨hpos, hequal, hbound⟩ := h
  have hpre : ∀ x ∈ pre, size x = e := dropLast_concat_equal hequal
  refine ⟨hpos, ?_, forall_mem_mid_two hbound hc'.le hs⟩
  rw [show pre ++ [c', s] = (pre ++ [c']) ++ [s] by simp, List.dropLast_concat]
  intro x hx
  rcases List.mem_append.mp hx with hx | hx
  · exact hpre x hx
  · rw [List.mem_singleton.mp hx, hc']

/-- What an insertion below must provide to a parent in compact form: it was an append, and the
child is compact and not larger than a complete one. -/
structure Appended (full : Nat) (compact : C → Bool) (vals : C → List V) (post : List C) (c' : C) :
    Prop where
  last : post = []
  compact : compact c' = true
  len_le : len vals c' ≤ full

theorem WellLaid.resize {k : Nat}
    (h : WellLaid maxSize full ok compact vals lay (pre ++ c :: post) sz) (hok : ok c')
    (hne : vals c' ≠ []) (hlen : len vals c' = len vals c + k)
    (hcompact : lay.isCompact = true → Appended full compact vals post c') :
    WellLaid maxSize full ok compact vals (lay.map (adjustFrom (· + k) pre.length))
      (pre ++ c' :: post) (sz + k) := by
  refine ⟨by simp, ?_, forall_mem_mid h.child_ok hok, forall_mem_mid h.child_nonempty hne, ?_, ?_, ?_⟩
  · simpa using h.length_le
  · rw [h.size_eq, span_append, span_append, span_cons, span_cons, hlen]
    omega
  · cases hlay : lay with
    | general offsets =>
      have hloc := h.located
      rw [hlay] at hloc
      exact BPlusTree.resize hloc hlen
    | compact e =>
      obtain ⟨hlast, _, hle⟩ := hcompact (by rw [hlay]; rfl)
      obtain ⟨he, -⟩ := h.compact_form e hlay
      subst hlast
      have hloc := h.located
      rw [hlay] at hloc
      refine hloc.replaceLast fun e' he' => ?_
      rw [← Layout.compact.inj he', he]
      exact hle
  · intro e he
    cases hlay : lay with
    | general offsets =>
      rw [hlay] at he
      cases he
    | compact e' =>
      obtain ⟨_, hc', _⟩ := hcompact (by rw [hlay]; rfl)
      obtain ⟨hfull, hall⟩ := h.compact_form e' hlay
      rw [hlay] at he
      refine ⟨?_, forall_mem_mid hall hc'⟩
      rw [← Layout.compact.inj he, hfull]

theorem WellLaid.insertSibling {k : Nat}
    (h : WellLaid maxSize full ok compact vals lay (pre ++ c :: post) sz)
    (hroom : (pre ++ c :: post).length < maxSize) (hok : ok c') (hoks : ok s) (hne : vals c' ≠ [])
    (hnes : vals s ≠ []) (hlen : len vals c' + len vals s = len vals c + k)
    (hcompact : lay.isCompact = true → Appended full compact vals post c' ∧ len vals c' = full ∧
      compact s = true ∧ len vals s ≤ full) :
    WellLaid maxSize full ok compact vals
      (lay.map (fun os => adjustFrom (· + k) (pre.length + 1)
        (os.insertIdx pre.length (span (len vals) pre + len vals c'))))
      (pre ++ c' :: s :: post) (sz + k) := by
  refine ⟨by simp, ?_, forall_mem_mid_two h.child_ok hok hoks,
    forall_mem_mid_two h.child_nonempty hne hnes, ?_, ?_, ?_⟩
  · simp only [List.length_append, List.length_cons] at hroom ⊢
    omega
  · rw [h.size_eq]
    simp only [span_append, span_cons]
    omega
  · cases hlay : lay with
    | general offsets =>
      have hloc := h.located
      rw [hlay] at hloc
      exact BPlusTree.insertSibling hloc hlen
    | compact e =>
      obtain ⟨⟨hlast, _, _⟩, hfull, _, hle⟩ := hcompact (by rw [hlay]; rfl)
      obtain ⟨he, -⟩ := h.compact_form e hlay
      subst hlast
      have hloc := h.located
      rw [hlay] at hloc
      exact hloc.appendCompact (by rw [hfull, he]) (by rw [he]; exact hle)
  · intro e he
    cases hlay : lay with
    | general offsets =>
      rw [hlay] at he
      cases he
    | compact e' =>
      obtain ⟨⟨_, hc', _⟩, _, hs, _⟩ := hcompact (by rw [hlay]; rfl)
      obtain ⟨hfull, hall⟩ := h.compact_form e' hlay
      rw [hlay] at he
      refine ⟨?_, forall_mem_mid_two hall hc' hs⟩
      rw [← Layout.compact.inj he, hfull]

theorem WellLaid.keepLast (h : WellLaid maxSize full ok compact vals lay (pre ++ [c]) sz)
    (hok : ok c') (hne : vals c' ≠ [])
    (hcompact : lay.isCompact = true → compact c' = true ∧ len vals c' ≤ full) :
    WellLaid maxSize full ok compact vals lay (pre ++ [c']) (span (len vals) pre + len vals c') := by
  refine ⟨by simp, ?_, forall_mem_mid h.child_ok hok, forall_mem_mid h.child_nonempty hne, ?_, ?_, ?_⟩
  · simpa using h.length_le
  · simp
  · refine h.located.replaceLast fun e he => ?_
    obtain ⟨-, hle⟩ := hcompact (by rw [he]; rfl)
    rw [(h.compact_form e he).1]
    exact hle
  · intro e he
    obtain ⟨hfull, hall⟩ := h.compact_form e he
    exact ⟨hfull, forall_mem_mid hall (hcompact (by rw [he]; rfl)).1⟩

theorem wellLaid_singleton (hmax : 1 ≤ maxSize) (hok : ok s) (hne : vals s ≠ [])
    (hlay : lay = .general [] ∨ lay = .compact full ∧ compact s = true ∧ len vals s ≤ full) :
    WellLaid maxSize full ok compact vals lay [s] (len vals s) := by
  have hpos : 0 < len vals s := List.length_pos_iff.mpr hne
  refine ⟨by simp, by simpa using hmax, by simpa using hok, by simpa using hne, by simp, ?_, ?_⟩
  · rcases hlay with rfl | ⟨rfl, -, hle⟩
    · rfl
    · exact ⟨by omega, by simp, by simpa using hle⟩
  · intro e he
    rcases hlay with rfl | ⟨rfl, hcs, -⟩
    · cases he
    · exact ⟨(Layout.compact.inj he).symm, by simpa using hcs⟩

theorem WellLaid.keepFirst {offsets : List Nat}
    (h : WellLaid maxSize full ok compact vals (.general offsets) (pre ++ c :: post) sz)
    (hpost : post ≠ []) (hok : ok c') (hoks : ok s) (hne : vals c' ≠ []) (hnes : vals s ≠ []) :
    WellLaid maxSize full ok compact vals
      (.general (Inner.withOffset (span (len vals) pre + len vals c') (offsets.take pre.length)))
      (pre ++ [c', s]) (span (len vals) pre + (len vals c' + len vals s)) := by
  have hpos : 0 < len vals c' := List.length_pos_iff.mpr hne
  have hmem : ∀ P : C → Prop, (∀ x ∈ pre ++ c :: post, P x) → ∀ x ∈ pre ++ c :: [], P x := by
    intro P hP x hx
    refine hP x ?_
    rcases List.mem_append.mp hx with hx | hx
    · exact List.mem_append_left _ hx
    · rw [List.mem_singleton.mp hx]
      simp
  refine ⟨by simp, ?_, forall_mem_mid_two (hmem ok h.child_ok) hok hoks,
    forall_mem_mid_two (hmem (vals · ≠ []) h.child_nonempty) hne hnes, by simp, ?_, ?_⟩
  · have := h.length_le
    have := List.length_pos_iff.mpr hpost
    simp only [List.length_append, List.length_cons, List.length_nil] at *
    omega
  · change 0 :: Inner.withOffset _ _ = _
    rw [Inner.withOffset, if_neg (by omega), show pre ++ [c', s] = (pre ++ [c']) ++ [s] by simp]
    have hkeep : Located (len vals) (.general (offsets.take pre.length)) (pre ++ [c']) := by
      have hloc : Located (len vals) (.general (offsets.take pre.length)) (pre ++ [c]) :=
        keepUpTo h.located
      refine hloc.replaceLast fun e he => ?_
      cases he
    have happend := BPlusTree.append (s := s) hkeep
    rw [span_append, span_cons, span_nil, Nat.add_zero] at happend
    exact happend
  · intro e he
    cases he

theorem WellLaid.moveRest {offsets : List Nat}
    (h : WellLaid maxSize full ok compact vals (.general offsets) (pre ++ c :: post) sz)
    (hpost : post ≠ []) :
    WellLaid maxSize full ok compact vals
      (.general ((Inner.movedChildren (.general offsets) (pre ++ c :: post) (pre.length + 1)
        (span (len vals) pre + len vals c)).foldl (fun os p => Inner.withOffset p.2 os) []))
      post (span (len vals) post) := by
  have hmem : ∀ x ∈ post, x ∈ pre ++ c :: post := fun x hx => by simp [hx]
  refine ⟨hpost, ?_, fun x hx => h.child_ok x (hmem x hx), fun x hx => h.child_nonempty x (hmem x hx),
    rfl, ?_, ?_⟩
  · have := h.length_le
    simp only [List.length_append, List.length_cons] at this
    omega
  · cases post with
    | nil => exact absurd rfl hpost
    | cons y post =>
      have hcut : pre ++ c :: y :: post = (pre ++ [c]) ++ y :: post := by simp
      have hloc := h.located
      rw [hcut] at hloc
      have hy : 0 < len vals y := h.child_pos y (by simp)
      have hmoved := located_moved_whole hloc hy
      rw [List.length_append, List.length_singleton, span_append, span_cons, span_nil, Nat.add_zero] at hmoved
      rw [hcut]
      exact_mod_cast hmoved
  · intro e he
    cases he

end Level

/-! ## All levels -/

section Levels

variable {V : Type} {T : LeafClass V} (L : ListLike T) (maxSize : Nat)

def nodeValues : (h : Nat) → Node T.Leaf h → List V
  | 0, l => L.values l
  | h + 1, n => n.children.flatMap (nodeValues h)

/-- The invariant of a node and everything below it.  A complete child of a node of height `h + 1`
has `maxSize ^ (h + 1)` elements. -/
def WellFormed : (h : Nat) → Node T.Leaf h → Prop
  | 0, l => L.Valid l ∧ (L.values l).length ≤ maxSize
  | h + 1, n => WellLaid maxSize (maxSize ^ (h + 1)) (WellFormed h) (isCompact T h) (nodeValues L h)
      n.form.layout n.children n.treeSize

theorem length_le_of_isCompact : ∀ (h : Nat) (n : Node T.Leaf h), WellFormed L maxSize h n →
    isCompact T h n = true → (nodeValues L h n).length ≤ maxSize ^ (h + 1)
  | 0, l, hn, _ => by
    rw [Nat.zero_add, pow_one]
    exact hn.2
  | h + 1, n, hn, hc => by
    change (n.children.flatMap (nodeValues L h)).length ≤ _
    cases hform : n.form with
    | general r offsets =>
      change n.form.isCompact = true at hc
      rw [hform] at hc
      cases hc
    | compact e =>
      obtain ⟨he, -⟩ := hn.compact_form e (by rw [hform]; rfl)
      have hloc := hn.located
      rw [hform] at hloc
      calc (n.children.flatMap (nodeValues L h)).length
          = span (len (nodeValues L h)) n.children := (span_len _ _).symm
        _ ≤ n.children.length * e := span_le _ hloc.2.2
        _ ≤ maxSize * maxSize ^ (h + 1) := by rw [he]; exact Nat.mul_le_mul_right _ hn.length_le
        _ = maxSize ^ (h + 1 + 1) := (pow_succ' maxSize (h + 1)).symm

theorem treeSize_eq (h : Nat) (n : Node T.Leaf h) (hn : WellFormed L maxSize h n) :
    treeSize T h n = (nodeValues L h n).length := by
  cases h with
  | zero => exact L.size_eq n hn.1
  | succ h => exact hn.size_eq.trans (span_len _ _)

end Levels

end Llbt.BPlusTree
