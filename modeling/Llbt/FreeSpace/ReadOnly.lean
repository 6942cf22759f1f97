import Llbt.FreeSpace.Writer

/-!
# The space freed by a transaction

`SlabAlloc::do_free` collects the nodes of the attached file that a transaction frees in
`m_free_read_only`, an ordered map from positions to sizes in which neighbours are merged.  The map
is a list sorted by position here; `none` stands for a failed release assertion.

* `doFree_spec` — freeing a block adds that block and nothing else;
* `frees_merge` — the entries stay in order, each block is merged with its neighbours, and no two entries touch if none
  did before.
-/

set_option autoImplicit false

namespace Llbt.FreeSpace

open Blocks

/-- The part of `do_free` that combines the block with the element behind it. -/
def mergeNext (b : Block) : List Block → Option (Block × List Block)
  | [] => some (b, [])
  | next :: rest =>
    if b.ref + b.size ≤ next.ref then
      if b.ref + b.size = next.ref then some (⟨b.ref, b.size + next.size⟩, rest)
      else some (b, next :: rest)
    else none

/-- The part of `do_free` that combines the block with the element before it. -/
def mergePrev (pre : List Block) (b : Block) : Option (List Block) :=
  match pre.getLast? with
  | none => some [b]
  | some prev =>
    if prev.ref + prev.size ≤ b.ref then
      if prev.ref + prev.size = b.ref then some (pre.dropLast ++ [⟨prev.ref, prev.size + b.size⟩])
      else some (pre ++ [b])
    else none

/-- `SlabAlloc::do_free` for a block of the attached file. -/
def doFree (m : List Block) (b : Block) : Option (List Block) :=
  if b.ref ≠ 0 ∧ b.ref % 8 = 0 then
    match mergeNext b (m.dropWhile fun c => c.ref < b.ref) with
    | none => none
    | some (b', next) =>
      match mergePrev (m.takeWhile fun c => c.ref < b.ref) b' with
      | none => none
      | some pre => some (pre ++ next)
  else none

/-- The frees of a transaction, one after the other. -/
def freeAll : List Block → List Block → Option (List Block)
  | [], m => some m
  | b :: bs, m =>
    match doFree m b with
    | none => none
    | some m => freeAll bs m

/-! ## Conservation -/

theorem mergeNext_spec {b b' : Block} {next next' : List Block} (h : mergeNext b next = some (b', next')) :
    (∀ x, b'.ind x + cover next' x = b.ind x + cover next x) ∧
      (Aligned b → (∀ c ∈ next, Aligned c) → Aligned b' ∧ ∀ c ∈ next', Aligned c) := by
  unfold mergeNext at h
  split at h
  · cases h
    exact ⟨fun _ => rfl, fun hb hn => ⟨hb, hn⟩⟩
  · split at h
    · split at h
      · rename_i hadj
        cases h
        refine ⟨fun x => ?_, fun hb hn => ⟨?_, (List.forall_mem_cons.mp hn).2⟩⟩
        · rw [ind_join hadj, cover_cons]
          omega
        · obtain ⟨h1, h2, h3⟩ := hb
          obtain ⟨h4, -, h6⟩ := (List.forall_mem_cons.mp hn).1
          refine ⟨?_, ?_, ?_⟩ <;> dsimp only <;> omega
      · cases h
        exact ⟨fun _ => rfl, fun hb hn => ⟨hb, hn⟩⟩
    · cases h

theorem mergePrev_spec {b : Block} {pre pre' : List Block} (h : mergePrev pre b = some pre') :
    (∀ x, cover pre' x = cover pre x + b.ind x) ∧ (Aligned b → (∀ c ∈ pre, Aligned c) → ∀ c ∈ pre', Aligned c) := by
  unfold mergePrev at h
  split at h
  · rename_i hnil
    cases h
    rw [List.getLast?_eq_none_iff.mp hnil]
    exact ⟨fun x => by simp, fun hb _ => by simpa using hb⟩
  · rename_i prev hlast
    obtain ⟨init, rfl⟩ := List.getLast?_eq_some_iff.mp hlast
    simp only [List.forall_mem_append, List.forall_mem_singleton]
    split at h
    · split at h
      · rename_i hadj
        cases h
        rw [List.dropLast_concat]
        refine ⟨fun x => ?_, fun hb hp => List.forall_mem_append.mpr ⟨hp.1, List.forall_mem_singleton.mpr ?_⟩⟩
        · simp only [cover_append, cover_cons, cover_nil, ind_join hadj]
          omega
        · obtain ⟨h1, h2, h3⟩ := hp.2
          obtain ⟨h4, -, h6⟩ := hb
          refine ⟨?_, ?_, ?_⟩ <;> dsimp only <;> omega
      · cases h
        refine ⟨fun x => by simp only [cover_append, cover_cons, cover_nil]; omega, fun hb hp => ?_⟩
        simpa only [List.forall_mem_append, List.forall_mem_singleton] using ⟨hp, hb⟩
    · cases h

/-- **Freeing a block adds that block and nothing else.** -/
theorem doFree_spec {m m' : List Block} {b : Block} (h : doFree m b = some m') :
    (∀ x, cover m' x = cover m x + b.ind x) ∧ (Aligned b → (∀ c ∈ m, Aligned c) → ∀ c ∈ m', Aligned c) := by
  unfold doFree at h
  split at h
  · split at h
    · cases h
    rename_i b' next hnext
    split at h
    · cases h
    rename_i pre hpre
    cases h
    obtain ⟨h1, h2⟩ := mergeNext_spec hnext
    obtain ⟨h4, h5⟩ := mergePrev_spec hpre
    refine ⟨fun x => ?_, fun hb hm => ?_⟩
    · have hsplit := congrArg (cover · x)
        (List.takeWhile_append_dropWhile (p := fun c => decide (c.ref < b.ref)) (l := m))
      simp only [cover_append] at hsplit ⊢
      have := h1 x
      have := h4 x
      omega
    · obtain ⟨hb', hnext'⟩ := h2 hb fun c hc => hm c ((List.dropWhile_sublist _).mem hc)
      exact List.forall_mem_append.mpr ⟨h5 hb' fun c hc => hm c ((List.takeWhile_sublist _).mem hc), hnext'⟩
  · cases h

theorem freeAll_spec : ∀ {bs m m' : List Block}, freeAll bs m = some m' →
    (∀ b ∈ bs, Aligned b) → (∀ c ∈ m, Aligned c) →
    (∀ x, cover m' x = cover m x + cover bs x) ∧ ∀ c ∈ m', Aligned c
  | [], m, m', h, _, hm => by
    cases h
    exact ⟨fun x => by simp, hm⟩
  | b :: bs, m, m', h, hbs, hm => by
    obtain ⟨hb, hbs⟩ := List.forall_mem_cons.mp hbs
    unfold freeAll at h
    split at h
    · cases h
    rename_i m₁ hfree
    obtain ⟨h1, h2⟩ := doFree_spec hfree
    obtain ⟨h3, h4⟩ := freeAll_spec h hbs (h2 hb hm)
    refine ⟨fun x => ?_, h4⟩
    rw [h3, h1, cover_cons]
    omega

/-! ## Neighbours -/

/-- Entries in order, with a gap of at least `gap` bytes between them. -/
def Spaced (gap : Nat) (m : List Block) : Prop := m.Pairwise (fun a b => a.ref + a.size + gap ≤ b.ref) ∧
    ∀ c ∈ m, 0 < c.size

/-- The block has become part of an entry, together with the entries that ended and began at its ends. -/
def Merges (m : List Block) (b : Block) (m' : List Block) : Prop :=
  ∃ e ∈ m', e.ref ≤ b.ref ∧ b.finish ≤ e.finish ∧ (∀ c ∈ m, c.finish = b.ref → e.ref = c.ref) ∧
    ∀ c ∈ m, c.ref = b.finish → e.finish = c.finish

/-- The frees return, and each one merges. -/
def FreesMerge : List Block → List Block → List Block → Prop
  | [], m, m' => m' = m
  | b :: bs, m, m' => ∃ m₁, doFree m b = some m₁ ∧ Merges m b m₁ ∧ FreesMerge bs m₁ m'

section Neighbours

variable {gap : Nat} {m pre next : List Block} {b : Block}

theorem mergeNext_merges (hgap : gap ≤ 1) (hm : Spaced gap next) (hnext : ∀ c ∈ next, b.ref + b.size ≤ c.ref) :
    ∃ b' next', mergeNext b next = some (b', next') ∧ b'.ref = b.ref ∧ b.size ≤ b'.size ∧ Spaced gap next' ∧
      (∀ c ∈ next', b'.ref + b'.size + gap ≤ c.ref) ∧ ∀ c ∈ next, c.ref = b.ref + b.size →
        b'.ref + b'.size = c.ref + c.size := by
  obtain ⟨hspaced, hpos⟩ := hm
  cases next with
  | nil => exact ⟨b, [], rfl, rfl, le_refl _, ⟨hspaced, hpos⟩, by simp, by simp⟩
  | cons n rest =>
    obtain ⟨hn, hrest⟩ := List.pairwise_cons.mp hspaced
    simp only [List.forall_mem_cons] at hpos hnext
    rw [mergeNext, if_pos hnext.1]
    by_cases hadj : b.ref + b.size = n.ref
    · rw [if_pos hadj]
      refine ⟨_, rest, rfl, rfl, Nat.le_add_right _ _, ⟨hrest, hpos.2⟩, fun c hc => ?_,
        List.forall_mem_cons.mpr ⟨fun _ => ?_, fun c hc => ?_⟩⟩
      · have := hn c hc
        dsimp only
        omega
      · dsimp only
        omega
      · -- the entries behind the first one begin later
        have := hn c hc
        omega
    · rw [if_neg hadj]
      refine ⟨b, n :: rest, rfl, rfl, le_refl _, ⟨hspaced, List.forall_mem_cons.mpr hpos⟩,
        List.forall_mem_cons.mpr ⟨by omega, fun c hc => ?_⟩,
        List.forall_mem_cons.mpr ⟨fun h => absurd h.symm hadj, fun c hc => ?_⟩⟩
      · have := hn c hc
        omega
      · have := hn c hc
        omega

theorem mergePrev_merges (hgap : gap ≤ 1) (hm : Spaced gap pre) (hb : 0 < b.size)
    (hpre : ∀ c ∈ pre, c.ref + c.size ≤ b.ref) :
    ∃ pre' e, mergePrev pre b = some (pre' ++ [e]) ∧ e.ref ≤ b.ref ∧ e.ref + e.size = b.ref + b.size ∧
      Spaced gap (pre' ++ [e]) ∧
      ∀ c ∈ pre, c.ref + c.size = b.ref → e.ref = c.ref := by
  rcases List.eq_nil_or_concat' pre with rfl | ⟨init, prev, rfl⟩
  · exact ⟨[], b, rfl, le_refl _, rfl, by simpa [Spaced] using hb, by simp⟩
  · simp only [Spaced, List.pairwise_append, List.forall_mem_append, List.mem_singleton, forall_eq, List.pairwise_cons,
      List.not_mem_nil, false_implies, implies_true, List.Pairwise.nil, true_and, and_true] at hm hpre ⊢
    obtain ⟨⟨hinit, hbefore⟩, hpos, hprev⟩ := hm
    rw [mergePrev, List.getLast?_concat]
    dsimp only
    rw [if_pos hpre.2]
    by_cases hadj : prev.ref + prev.size = b.ref
    · rw [if_pos hadj, List.dropLast_concat]
      refine ⟨init, _, rfl, by dsimp only; omega, by dsimp only; omega,
        ⟨⟨hinit, hbefore⟩, hpos, by dsimp only; omega⟩, fun c hc => ?_, fun _ => rfl⟩
      have := hbefore c hc
      omega
    · rw [if_neg hadj]
      refine ⟨init ++ [prev], b, rfl, le_refl _, rfl, ⟨⟨?_, fun c hc => ?_⟩, ?_, hb⟩, fun c hc => ?_, fun h =>
        absurd h hadj⟩
      · simpa [List.pairwise_append] using ⟨hinit, hbefore⟩
      · rcases List.mem_append.mp hc with hc | hc
        · have := hbefore c hc
          omega
        · rw [List.mem_singleton.mp hc]
          omega
      · simpa [or_imp, forall_and] using ⟨hpos, hprev⟩
      · have := hbefore c hc
        omega

theorem le_of_mem_dropWhile {x : Nat} : ∀ {m : List Block}, m.Pairwise (fun a b => a.ref + a.size + gap ≤ b.ref) →
    ∀ c ∈ m.dropWhile fun c => c.ref < x, x ≤ c.ref
  | [], _, _, hc => by cases hc
  | a :: m, hm, c, hc => by
    obtain ⟨ha, hm⟩ := List.pairwise_cons.mp hm
    rw [List.dropWhile_cons] at hc
    split at hc
    · exact le_of_mem_dropWhile hm c hc
    · rename_i hge
      rw [decide_eq_true_iff] at hge
      rcases List.mem_cons.mp hc with rfl | hc
      · omega
      · have := ha c hc
        omega

theorem doFree_merges (hgap : gap ≤ 1) (hm : Spaced gap m) (hb : 0 < b.size) (href : b.ref ≠ 0 ∧ b.ref % 8 = 0)
    (hout : ∀ c ∈ m, b.Apart c) : ∃ m', doFree m b = some m' ∧ Spaced gap m' ∧ Merges m b m' := by
  obtain ⟨hspaced, hpos⟩ := hm
  simp only [Block.Apart, Block.finish] at hout
  have hpre : ∀ c ∈ m.takeWhile fun c => c.ref < b.ref, c.ref + c.size ≤ b.ref := fun c hc => by
    have hlt : c.ref < b.ref := by simpa using List.mem_takeWhile_imp hc
    have := hout c ((List.takeWhile_sublist _).mem hc)
    omega
  have hnext : ∀ c ∈ m.dropWhile fun c => c.ref < b.ref, b.ref + b.size ≤ c.ref := fun c hc => by
    have hmem := (List.dropWhile_sublist _).mem hc
    have := le_of_mem_dropWhile hspaced c hc
    have := hout c hmem
    have := hpos c hmem
    omega
  have hsub : ∀ l, l.Sublist m → Spaced gap l := fun l hl => ⟨hspaced.sublist hl, fun c hc => hpos c (hl.mem hc)⟩
  obtain ⟨b', next, hn, href', hsize, hnspaced, hbehind, hsucc⟩ :=
    mergeNext_merges hgap (hsub _ (List.dropWhile_sublist _)) hnext
  obtain ⟨pre, e, hp, hle, hend, hpspaced, hpred⟩ :=
    mergePrev_merges (b := b') hgap (hsub _ (List.takeWhile_sublist _)) (by omega)
    (by rw [href']; exact hpre)
  have hbefore : ∀ c ∈ pre ++ [e], c.ref + c.size ≤ e.ref + e.size := fun c hc => by
    rcases List.mem_append.mp hc with hc | hc
    · have := (List.pairwise_append.mp hpspaced.1).2.2 c hc e (List.mem_singleton_self e)
      omega
    · rw [List.mem_singleton.mp hc]
  refine ⟨pre ++ [e] ++ next, ?_, ⟨List.pairwise_append.mpr ⟨hpspaced.1, hnspaced.1, fun c hc d hd => ?_⟩,
    List.forall_mem_append.mpr ⟨hpspaced.2, hnspaced.2⟩⟩,
    e, by simp, by omega, by simp only [Block.finish]; omega, fun c hc heq => ?_, fun c hc heq => ?_⟩
  · rw [doFree, if_pos href, hn]
    dsimp only
    rw [hp]
  · have := hbefore c hc
    have := hbehind d hd
    omega
  all_goals
    simp only [Block.finish] at heq ⊢
    rw [← List.takeWhile_append_dropWhile (p := fun c : Block => decide (c.ref < b.ref)) (l := m)] at hc
  · rcases List.mem_append.mp hc with hc | hc
    · exact hpred c hc (by omega)
    · have := hnext c hc
      omega
  · rcases List.mem_append.mp hc with hc | hc
    · have := hpre c hc
      omega
    · have := hsucc c hc heq
      omega

end Neighbours

/-- **Freeing blocks of the file.**  Whatever the entries, and for blocks that overlap neither them nor each other:
every call returns, the entries stay in order, they cover exactly the old ranges and the blocks, and each block is
merged with its neighbours on both sides.  If no two entries touched (`gap` 1), none do afterwards. -/
theorem frees_merge {gap : Nat} (hgap : gap ≤ 1) : ∀ {bs m : List Block}, Spaced gap m →
    (∀ b ∈ bs, 0 < b.size ∧ b.ref ≠ 0 ∧ b.ref % 8 = 0) →
    (∀ x, cover m x + cover bs x ≤ 1) → ∃ m', freeAll bs m = some m' ∧ FreesMerge bs m m' ∧ Spaced gap m' ∧
      ∀ x, cover m' x = cover m x + cover bs x
  | [], m, hm, _, _ => ⟨m, rfl, rfl, hm, fun _ => rfl⟩
  | b :: bs, m, hm, hbs, hout => by
    obtain ⟨⟨hb, href⟩, hbs⟩ := List.forall_mem_cons.mp hbs
    have hapart : ∀ c ∈ m, b.Apart c := fun c hc => (Block.apart_iff hb (hm.2 c hc)).mpr fun x hx => by
      have hle := hout x
      have := ind_le_cover hc x
      have := ind_pos_iff.mpr hx.1
      have := ind_pos_iff.mpr hx.2
      rw [cover_cons] at hle
      omega
    obtain ⟨m₁, hfree, hm₁, hmerges⟩ := doFree_merges hgap hm hb href hapart
    have hcover := (doFree_spec hfree).1
    obtain ⟨m', hall, hmerge, hm', hcover'⟩ := frees_merge hgap hm₁ hbs fun x => by
      have := hout x
      rw [cover_cons] at this
      rw [hcover]
      omega
    refine ⟨m', ?_, ⟨m₁, hfree, hmerges, hmerge⟩, hm', fun x => ?_⟩
    · rw [freeAll, hfree]
      exact hall
    · rw [hcover', hcover, cover_cons, Nat.add_assoc]

/-- A block between two entries. -/
theorem frees_merge_between : freeAll [⟨16, 8⟩] [⟨8, 8⟩, ⟨24, 16⟩] = some [⟨8, 32⟩] ∧
    ∃ m', freeAll [⟨16, 8⟩] [⟨8, 8⟩, ⟨24, 16⟩] = some m' ∧
    FreesMerge [⟨16, 8⟩] [⟨8, 8⟩, ⟨24, 16⟩] m' ∧ Spaced 1 m' ∧
    ∀ x, cover m' x = cover [⟨8, 8⟩, ⟨24, 16⟩] x + cover [⟨16, 8⟩] x := by
  refine ⟨by decide, frees_merge (le_refl 1) ⟨by simp, by simp⟩ (by simp) fun x => ?_⟩
  simp only [cover_cons, cover_nil, Block.ind]
  split_ifs <;> omega

end Llbt.FreeSpace
