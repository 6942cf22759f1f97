import Llbt.BPlusTree.Layout

/-!
# The offsets of an inner node agree with its children

`Located size lay cs`: the layout places each of the children `cs` at the sum of the sizes before
it.  The compact form does so because all children but the last have the same size; the general
form because its offsets are those sums, the leading zero left out.

* `Located.offset`, `Located.lookup` — reading: the offset of a child, the child of an index;
* `Located.ensured` — `ensure_offsets` changes the form, not the meaning;
* `resize`, `insertSibling`, `keepUpTo`, `append`, `dropEmpty`, `dropMerged` — what each edit of
  the offsets in `bptree_insert`, `insert_bp_node` and `bptree_erase` amounts to.

The edits are stated for a node whose children are `pre ++ c :: post`, with `c` at `pre.length`.
-/

set_option autoImplicit false

namespace Llbt.BPlusTree

open Segments

variable {C : Type} {size : C → Nat}

/-- The layout `lay` places the children `cs` where their sizes put them. -/
def Located (size : C → Nat) (lay : Layout) (cs : List C) : Prop :=
  match lay with
  | .compact e => 0 < e ∧ (∀ c ∈ cs.dropLast, size c = e) ∧ ∀ c ∈ cs, size c ≤ e
  | .general offsets => 0 :: offsets = starts size 0 cs

theorem starts_eq_map : ∀ (acc : Nat) (cs : List C), starts size acc cs = starts id acc (cs.map size)
  | _, [] => rfl
  | acc, c :: cs => by
    rw [starts, List.map_cons, starts, starts_eq_map]
    rfl

theorem Located.of_map_eq {D : Type} {size' : D → Nat} {lay : Layout} {cs : List C} {ds : List D}
    (h : Located size lay cs) (hmap : ds.map size' = cs.map size) : Located size' lay ds := by
  cases lay with
  | general offsets =>
    change 0 :: offsets = starts size' 0 ds
    rw [show 0 :: offsets = _ from h, starts_eq_map 0 cs, starts_eq_map 0 ds, hmap]
  | compact e =>
    obtain ⟨hpos, hequal, hbound⟩ := h
    have hequal' : ∀ x ∈ (ds.map size').dropLast, x = e := by
      rw [hmap, ← List.map_dropLast]
      exact List.forall_mem_map.mpr hequal
    have hbound' : ∀ x ∈ ds.map size', x ≤ e := by
      rw [hmap]
      exact List.forall_mem_map.mpr hbound
    rw [← List.map_dropLast] at hequal'
    exact ⟨hpos, List.forall_mem_map.mp hequal', List.forall_mem_map.mp hbound'⟩

/-! ## Reading -/

theorem mem_dropLast_of_mem_left {pre post : List C} {c x : C} (h : x ∈ pre) :
    x ∈ (pre ++ c :: post).dropLast := by
  rw [List.dropLast_append_of_ne_nil (List.cons_ne_nil c post)]
  exact List.mem_append_left _ h

theorem Located.offset {lay : Layout} {pre post : List C} {c : C}
    (h : Located size lay (pre ++ c :: post)) : lay.childOffset pre.length = span size pre := by
  cases lay with
  | compact e => exact (span_of_equal size fun x hx => h.2.1 x (mem_dropLast_of_mem_left hx)).symm
  | general offsets =>
    have hget : (0 :: offsets).getD pre.length 0 = span size pre := by
      rw [show 0 :: offsets = _ from h, starts_append, starts]
      have hlen : pre.length = (starts size 0 pre).length := (starts_length size 0 pre).symm
      rw [hlen]
      simp
    cases pre with
    | nil => rfl
    | cons x pre => simpa [Layout.childOffset] using hget

/-- **The child of an index.**  The child that the layout chooses for element `i` is the one whose
range holds it. -/
theorem Located.lookup {lay : Layout} {cs : List C} {i : Nat} (h : Located size lay cs)
    (hpos : ∀ c ∈ cs, 0 < size c) (hi : i < span size cs) :
    ∃ pre c post, cs = pre ++ c :: post ∧ span size pre ≤ i ∧ i < span size pre + size c ∧
      lay.childIndex i = pre.length := by
  obtain ⟨pre, c, post, hcs, hle, hlt, hcount⟩ :=
    exists_segment size hpos (Nat.zero_le i) (by rw [Nat.zero_add]; exact hi)
  rw [Nat.zero_add] at hle hlt
  refine ⟨pre, c, post, hcs, hle, hlt, ?_⟩
  cases lay with
  | general offsets =>
    rw [← show 0 :: offsets = _ from h, List.takeWhile_cons] at hcount
    simpa [Layout.childIndex, upperBound] using hcount
  | compact e =>
    obtain ⟨he, hequal, hbound⟩ := h
    subst hcs
    have hpre : span size pre = pre.length * e :=
      span_of_equal size fun x hx => hequal x (mem_dropLast_of_mem_left hx)
    have hc : size c ≤ e := hbound c (by simp)
    rw [hpre] at hle hlt
    exact Nat.div_eq_of_lt_le hle (by rw [Nat.succ_mul]; omega)

theorem Located.ensured {lay : Layout} {cs : List C} (h : Located size lay cs) (hne : cs ≠ []) :
    Located size (lay.ensured cs.length) cs := by
  cases lay with
  | general offsets => exact h
  | compact e =>
    obtain ⟨k, hk⟩ := Nat.exists_eq_succ_of_ne_zero (List.length_pos_iff.mpr hne).ne'
    change 0 :: _ = starts size 0 cs
    rw [starts_of_equal size h.2.1, hk, List.range_succ_eq_map]
    simp [Function.comp_def]

theorem Layout.ensured_eq (lay : Layout) (k : Nat) : ∃ offsets, lay.ensured k = .general offsets := by
  cases lay with
  | compact e => exact ⟨_, rfl⟩
  | general offsets => exact ⟨offsets, rfl⟩

/-! ## Editing the offsets -/

section Edits

variable {offsets : List Nat} {pre post : List C} {c c' s : C}

theorem length_of_located (h : 0 :: offsets = starts size 0 (pre ++ c :: post)) :
    offsets.length = pre.length + post.length := by
  have hlen := congrArg List.length h
  simp only [List.length_cons, starts_length, List.length_append] at hlen
  omega

theorem starts_mid (acc : Nat) (pre post : List C) (c : C) : starts size acc (pre ++ c :: post) =
    (starts size acc pre ++ [acc + span size pre]) ++
      starts size (acc + span size pre + size c) post := by
  rw [starts_append, starts, List.append_assoc]
  rfl

theorem adjustFrom_mid (f : Nat → Nat) (xs ys : List Nat) :
    adjustFrom f xs.length (xs ++ ys) = xs ++ ys.map f := by
  rw [adjustFrom, List.take_left, List.drop_left]

theorem adjustFrom_starts {f : Nat → Nat} {ys : List Nat}
    (h : 0 :: offsets = (starts size 0 pre ++ [0 + span size pre]) ++ ys) :
    0 :: adjustFrom f pre.length offsets =
      (starts size 0 pre ++ [0 + span size pre]) ++ ys.map f := by
  have hlen : (starts size 0 pre ++ [0 + span size pre]).length = pre.length + 1 := by simp
  have hcons : 0 :: adjustFrom f pre.length offsets = adjustFrom f (pre.length + 1) (0 :: offsets) := rfl
  rw [hcons, h, ← hlen, adjustFrom_mid]

theorem resize {k : Nat} (h : 0 :: offsets = starts size 0 (pre ++ c :: post))
    (hc : size c' = size c + k) :
    0 :: adjustFrom (· + k) pre.length offsets = starts size 0 (pre ++ c' :: post) := by
  rw [starts_mid] at h ⊢
  rw [adjustFrom_starts h, ← starts_add, hc, Nat.add_assoc (0 + span size pre)]

theorem resize_pred (h : 0 :: offsets = starts size 0 (pre ++ c :: post)) (hc : size c = size c' + 1) :
    0 :: adjustFrom (· - 1) pre.length offsets = starts size 0 (pre ++ c' :: post) := by
  rw [starts_mid] at h ⊢
  rw [adjustFrom_starts h, hc, ← Nat.add_assoc, starts_add, List.map_map]
  congr 1
  have hid : (fun x => x - 1) ∘ (fun x => x + 1) = (id : Nat → Nat) := by
    funext x
    simp
  rw [hid, List.map_id]

theorem insertSibling {k : Nat} (h : 0 :: offsets = starts size 0 (pre ++ c :: post))
    (hsum : size c' + size s = size c + k) :
    0 :: adjustFrom (· + k) (pre.length + 1) (offsets.insertIdx pre.length (span size pre + size c')) =
      starts size 0 (pre ++ c' :: s :: post) := by
  have hlen : (starts size 0 pre ++ [0 + span size pre]).length = pre.length + 1 := by simp
  -- The new offset goes right behind that of `c'`.
  have hins : 0 :: offsets.insertIdx pre.length (span size pre + size c') =
      (starts size 0 pre ++ [0 + span size pre]) ++ (span size pre + size c') ::
        starts size (0 + span size pre + size c) post := by
    rw [starts_mid] at h
    rw [← List.insertIdx_succ_cons, h, ← hlen, insertIdx_mid]
  have hpre : (pre ++ [c']).length = pre.length + 1 := by simp
  rw [show pre ++ c' :: s :: post = (pre ++ [c']) ++ s :: post by simp, starts_mid, ← hpre]
  have hcut : 0 :: offsets.insertIdx pre.length (span size pre + size c') =
      (starts size 0 (pre ++ [c']) ++ [0 + span size (pre ++ [c'])]) ++
        starts size (0 + span size pre + size c) post := by
    rw [hins, starts_append]
    simp [starts]
  rw [adjustFrom_starts hcut, ← starts_add]
  congr 2
  simp only [span_append, span_cons, span_nil]
  omega

theorem keepUpTo (h : 0 :: offsets = starts size 0 (pre ++ c :: post)) :
    0 :: offsets.take pre.length = starts size 0 (pre ++ [c]) := by
  have hlen : (starts size 0 pre ++ [0 + span size pre]).length = pre.length + 1 := by simp
  rw [starts_mid] at h ⊢
  rw [← List.take_succ_cons, h, ← hlen, List.take_left]
  simp [starts]

theorem append {cs : List C} (h : 0 :: offsets = starts size 0 cs) :
    0 :: (offsets ++ [span size cs]) = starts size 0 (cs ++ [s]) := by
  rw [starts_append, ← h]
  simp [starts]

theorem eraseIdx_starts {xs ys : List Nat} {x : Nat} {k : Nat} (h : 0 :: offsets = xs ++ x :: ys)
    (hk : xs.length = k + 1) : 0 :: offsets.eraseIdx k = xs ++ ys := by
  rw [← List.eraseIdx_cons_succ, h, ← hk, eraseIdx_mid]

/-- A child of size zero is dropped together with the offset of its right neighbour, which is the
same as its own; the last child with its own offset. -/
theorem dropEmpty (h : 0 :: offsets = starts size 0 (pre ++ c :: post)) (hc : size c = 0)
    (hne : pre ++ post ≠ []) :
    0 :: Inner.dropOffset pre.length offsets = starts size 0 (pre ++ post) := by
  have hlen := length_of_located h
  rw [starts_mid, hc, Nat.add_zero] at h
  unfold Inner.dropOffset
  cases post with
  | nil =>
    rw [List.append_nil] at hne
    have hpos : 0 < pre.length := List.length_pos_iff.mpr hne
    simp only [starts, List.append_nil, List.length_nil, Nat.add_zero] at h hlen ⊢
    rw [if_neg (by omega)]
    have herase := eraseIdx_starts (k := offsets.length - 1) h (by rw [starts_length]; omega)
    rw [herase, List.append_nil]
  | cons y post =>
    simp only [List.length_cons] at hlen
    rw [if_pos (by omega), starts_mid]
    rw [starts] at h
    exact eraseIdx_starts h (by simp)

theorem dropMerged {offsets' : List Nat}
    (h : 0 :: offsets = starts size 0 (pre ++ c :: s :: post)) (hc : size c' = size c + size s)
    (hset : offsets' = if pre.length + 1 < offsets.length then
      offsets.set pre.length (offsets.getD (pre.length + 1) 0) else offsets) :
    0 :: Inner.dropOffset (pre.length + 1) offsets' = starts size 0 (pre ++ c' :: post) := by
  have hlen := length_of_located h
  have hlen₁ : (starts size 0 pre ++ [0 + span size pre]).length = pre.length + 1 := by simp
  rw [starts_mid, starts] at h
  rw [List.length_cons] at hlen
  cases post with
  | nil =>
    rw [if_neg (by simp at hlen; omega)] at hset
    subst hset
    unfold Inner.dropOffset
    rw [if_neg (by simp at hlen; omega), show offsets'.length - 1 = pre.length by simp at hlen; omega,
      eraseIdx_starts h hlen₁, starts_mid, starts, starts]
  | cons y post =>
    rw [List.length_cons] at hlen
    rw [if_pos (by omega)] at hset
    rw [starts] at h
    -- The offset of `s` is overwritten by that of `y`.
    have hget : offsets.getD (pre.length + 1) 0 = 0 + span size pre + size c + size s := by
      have hshift : (0 :: offsets).getD (pre.length + 1 + 1) 0 = offsets.getD (pre.length + 1) 0 := rfl
      rw [← hshift, h, List.getD_append_right _ _ _ _ (by rw [hlen₁]; omega), hlen₁]
      simp
    have hlen₂ : (starts size 0 pre ++ [0 + span size pre] ++
        [0 + span size pre + size c + size s]).length = pre.length + 1 + 1 := by simp
    have hset' : 0 :: offsets' = (starts size 0 pre ++ [0 + span size pre] ++
        [0 + span size pre + size c + size s]) ++ (0 + span size pre + size c + size s) ::
          starts size (0 + span size pre + size c + size s + size y) post := by
      rw [hset, hget, ← List.set_cons_succ, h, ← hlen₁, set_mid]
      simp
    have hlen' : offsets'.length = offsets.length := by rw [hset, List.length_set]
    unfold Inner.dropOffset
    rw [if_pos (by omega), eraseIdx_starts hset' hlen₂, starts_mid, hc, starts]
    simp [Nat.add_assoc]

end Edits

/-! ## Children that move to another node -/

theorem foldl_withOffset (moved : List (C × Nat)) : ∀ offsets : List Nat,
    moved.foldl (fun os p => Inner.withOffset p.2 os) offsets =
      offsets ++ (moved.map Prod.snd).filter (· ≠ 0) := by
  induction moved with
  | nil => simp
  | cons p moved ih =>
    intro offsets
    rw [List.foldl_cons, ih]
    by_cases h0 : p.2 = 0
    · simp [Inner.withOffset, h0]
    · simp [Inner.withOffset, h0]

theorem movedChildren_zipIdx (lay : Layout) (adj : Int) : ∀ (pre post : List C),
    Located size lay (pre ++ post) →
    (post.zipIdx pre.length).map (fun p => (p.1, ((lay.childOffset p.2 : Int) - adj).toNat)) =
      post.zip ((starts size (span size pre) post).map (fun o : Nat => ((o : Int) - adj).toNat))
  | _, [], _ => rfl
  | pre, c :: post, h => by
    have hnext : pre ++ c :: post = (pre ++ [c]) ++ post := by simp
    have ih := movedChildren_zipIdx lay adj (pre ++ [c]) post (hnext ▸ h)
    rw [List.length_append, span_append, span_cons, span_nil, Nat.add_zero] at ih
    rw [List.zipIdx_cons, List.map_cons, starts, List.map_cons, List.zip_cons_cons, h.offset]
    exact congrArg _ ih

theorem movedChildren_eq {lay : Layout} {pre post : List C} (h : Located size lay (pre ++ post))
    (adj : Int) : Inner.movedChildren lay (pre ++ post) pre.length adj =
      post.zip ((starts size (span size pre) post).map (fun o : Nat => ((o : Int) - adj).toNat)) := by
  rw [Inner.movedChildren, List.zipIdx_append, List.drop_left' (by simp), Nat.zero_add]
  exact movedChildren_zipIdx lay adj pre post h

theorem map_fst_movedChildren {lay : Layout} {pre post : List C} (h : Located size lay (pre ++ post))
    (adj : Int) : (Inner.movedChildren lay (pre ++ post) pre.length adj).map Prod.fst = post := by
  rw [movedChildren_eq h, List.map_fst_zip (by simp)]

theorem map_snd_movedChildren {lay : Layout} {pre post : List C} (h : Located size lay (pre ++ post))
    (adj : Int) : (Inner.movedChildren lay (pre ++ post) pre.length adj).map Prod.snd =
      (starts size (span size pre) post).map (fun o : Nat => ((o : Int) - adj).toNat) := by
  rw [movedChildren_eq h, List.map_snd_zip (by simp)]

theorem starts_filter_ne_zero {acc : Nat} {cs : List C} (hacc : 0 < acc) :
    (starts size acc cs).filter (· ≠ 0) = starts size acc cs := by
  rw [List.filter_eq_self]
  intro p hp
  have := le_of_mem_starts size hp
  simpa using by omega

theorem movedChildren_congr (lay : Layout) (pre post : List C) (c c' : C) (adj : Int) :
    Inner.movedChildren lay (pre ++ c' :: post) (pre.length + 1) adj =
      Inner.movedChildren lay (pre ++ c :: post) (pre.length + 1) adj := by
  have hdrop : ∀ x : C, (pre ++ x :: post).zipIdx.drop (pre.length + 1) = post.zipIdx (pre.length + 1) := by
    intro x
    rw [List.zipIdx_append, List.zipIdx_cons, List.append_cons, List.drop_left' (by simp), Nat.zero_add]
  rw [Inner.movedChildren, Inner.movedChildren, hdrop, hdrop]

theorem located_moved_whole {lay : Layout} {pre : List C} {c : C} {post : List C}
    (h : Located size lay (pre ++ c :: post)) (hc : 0 < size c) :
    Located size (.general ((Inner.movedChildren lay (pre ++ c :: post) pre.length (span size pre)).foldl
      (fun os p => Inner.withOffset p.2 os) [])) (c :: post) := by
  change 0 :: _ = starts size 0 (c :: post)
  have hshift : starts size (span size pre) (c :: post) =
      (starts size 0 (c :: post)).map (· + span size pre) := by
    rw [← starts_add, Nat.zero_add]
  have hback : (fun o : Nat => ((o : Int) - (span size pre : Int)).toNat) ∘ (· + span size pre) = id := by
    funext o
    simp
  rw [foldl_withOffset, map_snd_movedChildren h, hshift, List.map_map, hback, List.map_id, List.nil_append,
    starts, List.filter_cons_of_neg (by simp), starts_filter_ne_zero (by omega)]

theorem located_moved_behind {lay : Layout} {offsets : List Nat} {cs cs' : List C} {adj : Int}
    (h : Located size (.general offsets) cs) (h' : Located size lay cs') (hcs : 0 < span size cs)
    (hadj : adj = -(span size cs : Int)) :
    Located size (.general ((Inner.movedChildren lay cs' 0 adj).foldl
      (fun os p => Inner.withOffset p.2 os) offsets)) (cs ++ cs') := by
  change 0 :: _ = starts size 0 (cs ++ cs')
  have hall : Located size lay ([] ++ cs') := h'
  have hsnd := map_snd_movedChildren hall adj
  rw [List.nil_append, List.length_nil, span_nil] at hsnd
  have hshift : (fun o : Nat => ((o : Int) - adj).toNat) = (· + span size cs) := by
    funext o
    omega
  rw [foldl_withOffset, hsnd, hshift, ← starts_add, Nat.zero_add, starts_filter_ne_zero hcs, starts_append,
    Nat.zero_add, ← show 0 :: offsets = _ from h, List.cons_append]

end Llbt.BPlusTree
