import Llbt.FreeSpace.Entries

/-!
# Evacuation

While an evacuation limit is set, `read_in_freelist` keeps back the free space above it, and `reserve_free_space` serves
requests from the space below.  A request that finds no room there ends the evacuation: the space kept back is released
and the limit becomes 0.  But the limit has been recorded before the evacuation array and the free list are placed, so
an evacuation that ends at one of them goes on with the next commit, unless `prepare_evacuation` finds the free list
above the limit.  There is free space above the limit then as well, so that the file is not extended under a limit.

* `reserveFreeSpace_guarded` — as long as the limit is in force, what is found lies below it;
* `start_above` — an evacuation starts with free space above its limit, on pages of less than 1 MiB;
* `reserve_behind` — if no room was left for the evacuation array, the free list is not placed below the limit;
* `evacuation_respected` — the logical size bounds all live nodes and the free list, and is bounded by the file; no
  block above the limit is handed out while the limit is in force;
* `free_list_at_the_limit` — once the evacuation has been given up, blocks above the limit are handed out.
-/

set_option autoImplicit false

namespace Llbt.FreeSpace

open Blocks

/-! ## Sizes of disjoint blocks -/

theorem sum_ind_range (b : Block) {n : Nat} (h : b.ref + b.size ≤ n) : ∑ x ∈ Finset.range n, b.ind x = b.size := by
  have hfilter : (Finset.range n).filter (fun x => b.ref ≤ x ∧ x < b.ref + b.size) =
    Finset.Ico b.ref (b.ref + b.size) := by
    ext x
    simp only [Finset.mem_filter, Finset.mem_range, Finset.mem_Ico]
    omega
  unfold Block.ind
  rw [← Finset.sum_filter, hfilter, Finset.sum_const, Nat.card_Ico, smul_eq_mul]
  omega

theorem sum_size_le {bs : List Block} {n : Nat} (hone : ∀ x, cover bs x ≤ 1) (hend : ∀ b ∈ bs, b.ref + b.size ≤ n) :
    (bs.map Block.size).sum ≤ n := by
  have hsum : ∀ as : List Block, (∀ b ∈ as, b.ref + b.size ≤ n) →
      (as.map Block.size).sum = ∑ x ∈ Finset.range n, cover as x := by
    intro as
    induction as with
    | nil =>
      intro _
      simp
    | cons a as ih =>
      intro h
      obtain ⟨ha, has⟩ := List.forall_mem_cons.mp h
      rw [List.map_cons, List.sum_cons, ih has, ← sum_ind_range a ha, ← Finset.sum_add_distrib]
      exact Finset.sum_congr rfl fun x _ => (cover_cons a as x).symm
  calc (bs.map Block.size).sum = ∑ x ∈ Finset.range n, cover bs x := hsum bs hend
    _ ≤ ∑ _x ∈ Finset.range n, 1 := Finset.sum_le_sum fun x _ => hone x
    _ = n := by simp

/-! ## The limit in force -/

/-- What holds of the writer while it hands out space: with a limit in force, the space on offer lies below it and some
space above it is kept back; without one nothing is kept back. -/
structure Guarded (w : Writer) : Prop where
  below : w.evacLimit ≠ 0 → ∀ x, 0 < cover w.sizeMap x → x < w.evacLimit
  above : w.evacLimit ≠ 0 → ∃ e ∈ w.underEvac, w.evacLimit < e.ref + e.size
  behind : ∀ e ∈ w.underEvac, w.evacLimit ≤ e.ref
  idle : w.evacLimit = 0 → w.underEvac = []

/-- From `w` to `w'` the evacuation went on, or it has been given up. -/
def GoesOn (w w' : Writer) : Prop :=
  (w'.evacLimit = w.evacLimit ∧ w'.underEvac = w.underEvac ∧ w'.backoff = w.backoff) ∨
    (w'.evacLimit = 0 ∧ w'.underEvac = [] ∧ w'.backoff = 10)

theorem GoesOn.refl (w : Writer) : GoesOn w w := Or.inl ⟨rfl, rfl, rfl⟩

theorem GoesOn.trans {w w' w'' : Writer} (h : GoesOn w w') (h' : GoesOn w' w'') : GoesOn w w'' := by
  rcases h' with ⟨hl, hu, hb⟩ | h'
  · rcases h with ⟨hl', hu', hb'⟩ | ⟨hl', hu', hb'⟩
    · exact Or.inl ⟨hl.trans hl', hu.trans hu', hb.trans hb'⟩
    · exact Or.inr ⟨hl.trans hl', hu.trans hu', hb.trans hb'⟩
  · exact Or.inr h'

theorem GoesOn.limit_eq {w w' : Writer} (h : GoesOn w w') (hne : w'.evacLimit ≠ 0) : w'.evacLimit = w.evacLimit := by
  rcases h with ⟨hl, -, -⟩ | ⟨hl, -, -⟩
  · exact hl
  · exact absurd hl hne

section Guarded

variable {cfg : Config} {commitSize size : Nat} {w w' : Writer} {b : Block}

theorem Guarded.of_cover_le (h : Guarded w) {m : List Block} (hm : ∀ x, cover m x ≤ cover w.sizeMap x) :
    Guarded { w with sizeMap := m } :=
  ⟨fun hne x hx => h.below hne x (Nat.lt_of_lt_of_le hx (hm x)), h.above, h.behind, h.idle⟩

theorem reserveLoop_idle : ∀ {fuel : Nat} {w : Writer}, w.evacLimit = 0 → w.underEvac = [] →
    reserveLoop cfg commitSize size fuel w = some (w', b) →
    w'.evacLimit = 0 ∧ w'.underEvac = [] ∧ w'.backoff = w.backoff
  | 0, _, _, _, h => by cases h
  | fuel + 1, w, hzero, hevac, h => by
    obtain ⟨-, ⟨m, -, rfl⟩ | ⟨-, h⟩⟩ := reserveLoop_extend_cases hevac h
    · exact ⟨hzero, hevac, rfl⟩
    · exact reserveLoop_idle (w := extended cfg commitSize size w) hzero hevac h

/-- **As long as the limit is in force, what is found lies below it.** -/
theorem reserveFreeSpace_guarded {fuel : Nat} (hg : Guarded w) (hok : w.Ok) (hsize : 0 < size)
    (h : reserveFreeSpace cfg commitSize fuel size w = some (w', b)) : Guarded w' ∧ GoesOn w w' := by
  have hidle : ∀ {u : Writer}, u.evacLimit = 0 → u.underEvac = [] → Guarded u := fun hzero hevac =>
    ⟨fun hne => absurd hzero hne, fun hne => absurd hzero hne, fun e he => (by rw [hevac] at he; cases he),
      fun _ => hevac⟩
  unfold reserveFreeSpace at h
  split at h
  · rename_i m b' hfound
    cases h
    have hcover := (searchPart_found hok.sizeMap_aligned hsize hfound).cover_eq
    exact ⟨hg.of_cover_le fun x => Nat.le_of_eq (hcover x), GoesOn.refl w⟩
  · by_cases hevac : w.underEvac = []
    · -- with nothing kept back there is no limit
      have hzero : w.evacLimit = 0 := by
        by_contra hne
        obtain ⟨e, he, -⟩ := hg.above hne
        rw [hevac] at he
        cases he
      obtain ⟨hl, hu, hb⟩ := reserveLoop_idle hzero hevac h
      exact ⟨hidle hl hu, Or.inl ⟨hl.trans hzero.symm, hu.trans hevac.symm, hb⟩⟩
    · cases fuel with
      | zero => cases h
      | succ fuel =>
        rw [reserveLoop, if_pos hevac] at h
        dsimp only at h
        split at h
        · cases h
          exact ⟨hidle rfl rfl, Or.inr ⟨rfl, rfl, rfl⟩⟩
        · obtain ⟨hl, hu, hb⟩ := reserveLoop_idle (w := giveUpEvacuation w) rfl rfl h
          exact ⟨hidle hl hu, Or.inr ⟨hl, hu, hb⟩⟩

theorem Guarded.finish_le (hg : Guarded w) (hok : w.Ok) (hne : w.evacLimit ≠ 0) (hb : b ∈ w.sizeMap) :
    b.ref + b.size ≤ w.evacLimit := by
  have hpos := (hok.sizeMap_aligned b hb).size_pos
  have hlast : 0 < cover w.sizeMap (b.ref + b.size - 1) := cover_pos_iff.mpr ⟨b, hb, by omega, by omega⟩
  have hlt := hg.below hne _ hlast
  omega

theorem getFreeSpace_guarded {fuel : Nat} (hg : Guarded w) (hok : w.Ok) (hsize : 0 < size)
    (h : getFreeSpace cfg commitSize fuel size w = some (w', b)) :
    Guarded w' ∧ GoesOn w w' ∧ (w'.evacLimit ≠ 0 → b.ref + b.size ≤ w'.evacLimit) := by
  unfold getFreeSpace at h
  split at h
  · cases h
  rename_i w₁ p hres
  obtain ⟨hg₁, hon⟩ := reserveFreeSpace_guarded hg hok hsize hres
  obtain ⟨hgrows, hmem, hle, -⟩ := reserveFreeSpace_spec hsize hok hres
  cases h
  refine ⟨hg₁.of_cover_le fun x => ?_, hon, fun hne => ?_⟩
  · have hsplit := ind_split p hle x
    split
    · rw [cover_emplace, cover_erase hmem]
      omega
    · rw [cover_erase hmem]
      omega
  · have hfinish := hg₁.finish_le hgrows.ok hne hmem
    dsimp only
    omega

theorem writeArrays_guarded {fuel : Nat} : ∀ {sizes : List Nat} {w w' : Writer} {bs : List Block}, Guarded w → w.Ok →
    (∀ s ∈ sizes, 0 < s ∧ s % 8 = 0) → writeArrays cfg commitSize fuel sizes w = some (w', bs) →
    Guarded w' ∧ GoesOn w w' ∧ (w'.evacLimit ≠ 0 → ∀ b ∈ bs, b.ref + b.size ≤ w'.evacLimit)
  | [], w, _, bs, hg, _, _, h => by
    cases h
    exact ⟨hg, GoesOn.refl w, fun _ => List.forall_mem_nil _⟩
  | size :: sizes, w, w', bs, hg, hok, hs, h => by
    obtain ⟨⟨hpos, h8⟩, hsizes⟩ := List.forall_mem_cons.mp hs
    unfold writeArrays at h
    split at h
    · cases h
    rename_i w₁ b hget
    obtain ⟨hg₁, hon₁, hb⟩ := getFreeSpace_guarded hg hok hpos hget
    have hok₁ := (getFreeSpace_spec hpos h8 hok hget).1.ok
    split at h
    · cases h
    rename_i w₂ bs' hrest
    obtain ⟨hg₂, hon₂, hbs⟩ := writeArrays_guarded hg₁ hok₁ hsizes hrest
    cases h
    refine ⟨hg₂, hon₁.trans hon₂, fun hne => List.forall_mem_cons.mpr ⟨?_, hbs hne⟩⟩
    have hlimit := hon₂.limit_eq hne
    rw [hlimit] at hne ⊢
    exact hb hne

end Guarded

/-! ## Reading the free list -/

theorem readEntries_below (oldest : Nat) {limit : Nat} (hne : limit ≠ 0) : ∀ es : List Entry,
    ∀ e ∈ (readEntries oldest limit es).1, e.ref + e.size ≤ limit
  | [] => List.forall_mem_nil _
  | e :: es => by
    have ih := readEntries_below oldest hne es
    unfold readEntries
    dsimp only
    split
    · exact ih
    · split
      · split
        · refine List.forall_mem_cons.mpr ⟨?_, ih⟩
          dsimp only
          omega
        · exact ih
      · rename_i hover
        refine List.forall_mem_cons.mpr ⟨?_, ih⟩
        dsimp only
        omega

theorem readEntries_above (oldest : Nat) {limit : Nat} (hne : limit ≠ 0) : ∀ {es : List Entry} {e : Entry}, e ∈ es →
    e.releasedAt ≤ oldest → limit < e.ref + e.size →
    ∃ f ∈ (readEntries oldest limit es).2.2, f.ref + f.size = e.ref + e.size
  | _ :: es, e, he, hold, hover => by
    unfold readEntries
    dsimp only
    rcases List.mem_cons.mp he with rfl | he
    · rw [if_neg (Nat.not_lt_of_le hold), if_pos ⟨hne, hover⟩]
      split
      · exact ⟨_, List.mem_cons_self .., by dsimp only; omega⟩
      · exact ⟨_, List.mem_cons_self .., rfl⟩
    · obtain ⟨g, hg, hgend⟩ := readEntries_above oldest hne he hold hover
      split
      · exact ⟨g, hg, hgend⟩
      · split
        · split
          · exact ⟨g, List.mem_cons_of_mem _ hg, hgend⟩
          · exact ⟨g, List.mem_cons_of_mem _ hg, hgend⟩
        · exact ⟨g, hg, hgend⟩

theorem readEntries_behind (oldest limit : Nat) : ∀ es : List Entry,
    ∀ e ∈ (readEntries oldest limit es).2.2, limit ≤ e.ref
  | [] => List.forall_mem_nil _
  | e :: es => by
    have ih := readEntries_behind oldest limit es
    unfold readEntries
    dsimp only
    split
    · exact ih
    · split
      · split
        · exact List.forall_mem_cons.mpr ⟨Nat.le_refl _, ih⟩
        · rename_i hge
          exact List.forall_mem_cons.mpr ⟨Nat.le_of_not_lt hge, ih⟩
      · exact ih

theorem mergeLoop_ref {limit : Nat} : ∀ {es merged : List Entry} {prev : Entry}, limit ≤ prev.ref →
    (∀ e ∈ merged, limit ≤ e.ref) → (∀ e ∈ es, limit ≤ e.ref) → ∀ e ∈ mergeLoop prev merged es, limit ≤ e.ref
  | [], _, _, hprev, hmerged, _ => List.forall_mem_cons.mpr ⟨hprev, hmerged⟩
  | it :: rest, merged, prev, hprev, hmerged, hes => by
    obtain ⟨hit, hrest⟩ := List.forall_mem_cons.mp hes
    unfold mergeLoop
    split
    · have hgrown : limit ≤ (Entry.mk prev.ref (prev.size + it.size) prev.releasedAt).ref := hprev
      exact mergeLoop_ref hgrown (List.forall_mem_append.mpr ⟨hmerged, List.forall_mem_singleton.mpr hit⟩) hrest
    · exact List.forall_mem_append.mpr ⟨List.forall_mem_cons.mpr ⟨hprev, hmerged⟩,
        mergeLoop_ref hit (List.forall_mem_nil _) hrest⟩

theorem mergeAdjacent_ref {limit : Nat} {es : List Entry} (h : ∀ e ∈ es, limit ≤ e.ref) :
    ∀ e ∈ mergeAdjacent es, limit ≤ e.ref := by
  cases es with
  | nil => exact List.forall_mem_nil _
  | cons e es =>
    obtain ⟨he, hes⟩ := List.forall_mem_cons.mp h
    exact mergeLoop_ref he (List.forall_mem_nil _) hes

theorem readEntries_idle (oldest : Nat) : ∀ es : List Entry, (readEntries oldest 0 es).2.2 = []
  | [] => rfl
  | e :: es => by
    have ih := readEntries_idle oldest es
    unfold readEntries
    dsimp only
    split
    · exact ih
    · rw [if_neg (fun h => h.1 rfl)]
      exact ih

theorem coverE_filter_size (es : List Entry) (x : Nat) : coverE (es.filter fun e => e.size ≠ 0) x = coverE es x := by
  induction es with
  | nil => rfl
  | cons e es ih =>
    by_cases he : e.size = 0
    · have hzero := ind_eq_zero_of_size (b := e.block) he x
      rw [List.filter_cons_of_neg (by simpa using he), ih, coverE_cons]
      omega
    · rw [List.filter_cons_of_pos (by simpa using he), coverE_cons, coverE_cons, ih]

/-- What a version with a limit to go on with must have: usable space above the limit. -/
def Version.Evacuable (v : Version) : Prop :=
  (prepareEvacuation v).1 ≠ 0 → ∃ e ∈ v.free, e.releasedAt = 0 ∧ (prepareEvacuation v).1 < e.ref + e.size

theorem startWriter_guarded {cfg : Config} (live : List Version) {replaced : Version} (c : Commit)
    (hwf : replaced.WF cfg) (h : replaced.Evacuable) : Guarded (startWriter live replaced c) where
  below := by
    intro hne x hx
    have hx' : 0 < coverE (readEntries (oldestReachable live) (prepareEvacuation replaced).1 replaced.free).1 x := by
      rw [← mergeAdjacent_cover]
      change 0 < cover (moveToSizeMap (mergeAdjacent (readEntries _ _ _).1) []) x at hx
      rwa [moveToSizeMap_cover, cover_nil, Nat.add_zero] at hx
    obtain ⟨b, hb, hhas⟩ := cover_pos_iff.mp hx'
    obtain ⟨e, he, rfl⟩ := List.mem_map.mp hb
    have hle := readEntries_below (oldestReachable live) hne replaced.free e he
    exact Nat.lt_of_lt_of_le hhas.2 hle
  above := by
    intro hne
    obtain ⟨e, he, hzero, hover⟩ := h hne
    obtain ⟨f, hf, hend⟩ := readEntries_above (oldestReachable live) hne he (hzero ▸ Nat.zero_le _) hover
    -- the last address of the entry is covered by one that has been merged with its neighbours
    have hlast : 0 < coverE (startWriter live replaced c).underEvac (f.ref + f.size - 1) := by
      change 0 < coverE ((mergeAdjacent (readEntries _ _ _).2.2).filter fun e => e.size ≠ 0) _
      rw [coverE_filter_size, mergeAdjacent_cover]
      refine cover_pos_iff.mpr ⟨f.block, List.mem_map_of_mem hf, ?_, ?_⟩
      · have hpos := ((readEntries_aligned (oldestReachable live) (prepareEvacuation_mod hwf.limit_mod)
          hwf.free_aligned).2 f hf).size_pos
        simp only [Entry.block] at hpos ⊢
        omega
      · show f.ref + f.size - 1 < f.ref + f.size
        omega
    obtain ⟨b, hb, hhas⟩ := cover_pos_iff.mp hlast
    obtain ⟨g, hg, rfl⟩ := List.mem_map.mp hb
    refine ⟨g, hg, ?_⟩
    have hlt : f.ref + f.size - 1 < g.ref + g.size := hhas.2
    change (prepareEvacuation replaced).1 < g.ref + g.size
    omega
  behind := by
    intro e he
    exact mergeAdjacent_ref (readEntries_behind _ _ _) e (List.mem_of_mem_filter he)
  idle := by
    intro hzero
    change (prepareEvacuation replaced).1 = 0 at hzero
    change (mergeAdjacent (readEntries _ (prepareEvacuation replaced).1 _).2.2).filter _ = []
    rw [hzero, readEntries_idle]
    rfl

/-! ## The start of an evacuation -/

theorem sum_filter_ref : ∀ {es : List Entry}, Ordered es → (∀ e ∈ es, 0 < e.size) → ∀ {e : Entry}, e ∈ es →
    ((es.filter fun f => f.ref ≠ e.ref).map Entry.size).sum + e.size = (es.map Entry.size).sum
  | f :: es, hord, hpos, e, he => by
    obtain ⟨hf, hes⟩ := List.pairwise_cons.mp hord
    by_cases href : f.ref = e.ref
    · have heq : f = e := hord.eq_of_ref_eq hpos (List.mem_cons_self ..) he href
      have hrest : es.filter (fun g => g.ref ≠ e.ref) = es := by
        refine List.filter_eq_self.mpr fun g hg => ?_
        have hlt := hf g hg
        have hsize := hpos f (List.mem_cons_self ..)
        simp only [ne_eq, decide_not, Bool.not_eq_eq_eq_not, Bool.not_true, decide_eq_false_iff_not]
        omega
      rw [List.filter_cons_of_neg (by simpa using href), hrest, List.map_cons, List.sum_cons, heq]
      omega
    · have hmem : e ∈ es := by
        rcases List.mem_cons.mp he with rfl | he
        · exact absurd rfl href
        · exact he
      have ih := sum_filter_ref hes (fun g hg => hpos g (List.mem_cons_of_mem _ hg)) hmem
      rw [List.filter_cons_of_pos (by simpa using href), List.map_cons, List.map_cons, List.sum_cons, List.sum_cons]
      omega

theorem limit_lt {cfg : Config} (hpage : cfg.page < minimalCompactionSize) {logical free : Nat}
    (hlogical : minimalCompactionSize ≤ logical) (hdvd : cfg.page ∣ logical) (hfree : 2 * (logical - free) < free) :
    max minimalEvacLimit (roundUpToPageSize cfg ((logical - free) + (logical - free) / 2)) < free := by
  obtain ⟨m, rfl⟩ := hdvd
  have hpos := cfg.page_pos
  unfold minimalCompactionSize at hpage hlogical
  have hround : roundUpToPageSize cfg ((cfg.page * m - free) + (cfg.page * m - free) / 2) ≤
    cfg.page * ((m + 1) / 2) := by
    refine roundUpToPageSize_le cfg ?_ (Nat.dvd_mul_right _ _)
    rcases Nat.even_or_odd' m with ⟨j, rfl | rfl⟩
    · rw [show (2 * j + 1) / 2 = j by omega]
      have hmul : cfg.page * (2 * j) = 2 * (cfg.page * j) := by ring
      omega
    · rw [show (2 * j + 1 + 1) / 2 = j + 1 by omega]
      have hmul : cfg.page * (2 * j + 1) = 2 * (cfg.page * j) + cfg.page := by ring
      have hmul' : cfg.page * (j + 1) = cfg.page * j + cfg.page := by ring
      omega
  have htwo : 2 ≤ m := by
    by_contra hlt
    have hle : cfg.page * m ≤ cfg.page * 1 := Nat.mul_le_mul_left _ (by omega)
    omega
  rcases Nat.even_or_odd' m with ⟨j, rfl | rfl⟩
  · rw [show (2 * j + 1) / 2 = j by omega] at hround
    have hmul : cfg.page * (2 * j) = 2 * (cfg.page * j) := by ring
    unfold minimalEvacLimit
    omega
  · rw [show (2 * j + 1 + 1) / 2 = j + 1 by omega] at hround
    have hmul : cfg.page * (2 * j + 1) = 2 * (cfg.page * j) + cfg.page := by ring
    have hmul' : cfg.page * (j + 1) = cfg.page * j + cfg.page := by ring
    have hj : cfg.page * 1 ≤ cfg.page * j := Nat.mul_le_mul_left _ (by omega)
    unfold minimalEvacLimit
    omega

theorem sum_collect (w : Writer) (freed : List Block) (current : Nat) :
    ((collect w freed current).map Entry.size).sum =
      (w.usable.map Block.size).sum + (w.notFree.map Entry.size).sum + (freed.map Block.size).sum := by
  simp only [collect, Writer.usable, List.map_append, List.map_map, List.sum_append]
  have hentry : (w.underEvac.map (Entry.size ∘ fun e => ⟨e.ref, e.size, 0⟩)) = w.underEvac.map Entry.size := rfl
  have hblock : w.underEvac.map (Block.size ∘ Entry.block) = w.underEvac.map Entry.size := rfl
  have hbs : ∀ (bs : List Block) (v : Nat), bs.map (Entry.size ∘ fun b => ⟨b.ref, b.size, v⟩) = bs.map Block.size :=
    fun _ _ => rfl
  rw [hentry, hblock, hbs, hbs]
  omega

/-- **An evacuation starts with usable space above its limit.** -/
theorem start_above {cfg : Config} {w : Writer} {es : List Entry} {freed : List Block} {current maxNeeded limit : Nat}
    {reserve : Block} {point : EvacPoint} (hpage : cfg.page < minimalCompactionSize) (hdvd : cfg.page ∣ w.logicalSize)
    (hes : recreateFreelist w freed current = some es) (hpos : ∀ e ∈ es, 0 < e.size) (hmem : reserve ∈ w.sizeMap)
    (hpoint : ∀ l, point ≠ .start l)
    (h : startEvacuation cfg w es freed maxNeeded reserve point = .start limit) :
    ∃ b ∈ w.usable, limit < b.ref + b.size := by
  unfold startEvacuation at h
  split at h
  case isFalse => exact absurd h (hpoint _)
  rename_i hstart
  dsimp only at h
  split at h
  case isFalse => exact absurd h (hpoint _)
  rename_i hfree
  obtain ⟨hperm, hord⟩ := recreateFreelist_spec hes
  have hothers := sum_filter_ref hord hpos (reserve_mem_entries hmem hes)
  have hsum : (es.map Entry.size).sum = _ := ((hperm.map Entry.size).sum_eq).trans (sum_collect w freed current)
  have hlimit := limit_lt hpage hstart.1 hdvd hfree
  rw [EvacPoint.start.injEq] at h
  rw [h] at hlimit
  by_contra hnone
  have hall : ∀ b ∈ w.usable, b.ref + b.size ≤ limit := fun b hb => Nat.le_of_not_lt fun hlt => hnone ⟨b, hb, hlt⟩
  have hone : ∀ x, cover w.usable x ≤ 1 := by
    intro x
    have hcollect := coverE_collect w freed current x
    have hcover : coverE es x = coverE (collect w freed current) x := cover_perm (hperm.map Entry.block) x
    have hapart : (es.map Entry.block).Pairwise fun a b => a.finish ≤ b.ref := List.pairwise_map.mpr hord
    have hle : coverE es x ≤ 1 := cover_le_one hapart x
    omega
  have husable := sum_size_le hone hall
  dsimp only at hothers
  omega

/-! ## One commit -/

theorem finishCommit_cases {cfg : Config} {replaced : Version} {c : Commit} {w : Writer} {freed nodes : List Block}
    {point : EvacPoint} {maxNeeded : Nat} {reserve : Block} {v : Version}
    (h : finishCommit cfg replaced c w freed nodes point maxNeeded reserve = some v) :
    ∃ es, recreateFreelist w freed c.version = some es ∧
      (arraySizes reserve.ref maxNeeded c.topBytes es).sum < reserve.size ∧
      (∃ endRef rest, endRef + rest = reserve.ref + reserve.size ∧ deduct reserve.ref endRef rest es = some v.free) ∧
      v.arrays = stack reserve.ref (arraySizes reserve.ref maxNeeded c.topBytes es) ∧
      v.evac = startEvacuation cfg w es freed maxNeeded reserve point := by
  unfold finishCommit at h
  split at h
  · cases h
  rename_i es hes
  dsimp only at h
  split at h
  case isFalse => cases h
  rename_i hend
  split at h
  · cases h
  rename_i free hfree
  cases h
  refine ⟨es, hes, by omega, ⟨_, _, ?_, hfree⟩, rfl, rfl⟩
  omega

section Commit

variable {cfg : Config} {live : List Version} {replaced : Version} {c : Commit} {w : Writer} {freed nodes : List Block}
  {point : EvacPoint} {maxNeeded : Nat} {reserve : Block} {v : Version}

theorem usable_kept (hmem : reserve ∈ w.sizeMap) (haligned : ∀ e ∈ collect w freed c.version, Aligned e.block)
    (h : finishCommit cfg replaced c w freed nodes point maxNeeded reserve = some v) {b : Block} (hb : b ∈ w.usable) :
    ∃ e ∈ v.free, e.releasedAt = 0 ∧ e.ref + e.size = b.ref + b.size := by
  obtain ⟨es, hes, -, ⟨endRef, rest, hrest, hfree⟩, -, -⟩ := finishCommit_cases h
  obtain ⟨hperm, hord⟩ := recreateFreelist_spec hes
  have hpos : ∀ e ∈ es, 0 < e.size := fun e he => (haligned e (hperm.mem_iff.mp he)).size_pos
  have hentry : (⟨b.ref, b.size, 0⟩ : Entry) ∈ es := by
    rw [hperm.mem_iff]
    simp only [collect, List.mem_append, List.mem_map]
    rcases List.mem_append.mp hb with hb | hb
    · exact Or.inl (Or.inl (Or.inl ⟨b, hb, rfl⟩))
    · obtain ⟨e, he, rfl⟩ := List.mem_map.mp hb
      exact Or.inr ⟨e, he, rfl⟩
  obtain ⟨pre, e, post, rfl, href, hv⟩ := deduct_spec hfree
  have he : e = ⟨reserve.ref, reserve.size, 0⟩ :=
    hord.eq_of_ref_eq hpos (by simp) (reserve_mem_entries hmem hes) href
  rw [hv]
  rcases List.mem_append.mp hentry with hb | hb
  · exact ⟨_, List.mem_append_left _ hb, rfl, rfl⟩
  · rcases List.mem_cons.mp hb with heq | hb
    · refine ⟨⟨endRef, rest, e.releasedAt⟩, by simp, by rw [← heq], ?_⟩
      rw [he] at heq
      simp only [Entry.mk.injEq] at heq
      dsimp only
      omega
    · exact ⟨_, List.mem_append_right _ (List.mem_cons_of_mem _ hb), rfl, rfl⟩

theorem aligned_collect {current : Nat} (hw : ∀ b ∈ w.usable, Aligned b) (hlocked : ∀ e ∈ w.notFree, Aligned e.block)
    (hfreed : ∀ b ∈ freed, Aligned b) : ∀ e ∈ collect w freed current, Aligned e.block := by
  intro e he
  rcases mem_collect he with ⟨-, hb⟩ | hb | ⟨-, hb⟩
  · exact hw _ hb
  · exact hlocked e hb
  · exact hfreed _ hb

theorem startEvacuation_cases (cfg : Config) (w : Writer) (es : List Entry) (freed : List Block) (maxNeeded : Nat)
    (reserve : Block) (point : EvacPoint) :
    startEvacuation cfg w es freed maxNeeded reserve point = point ∨
    ∃ limit, startEvacuation cfg w es freed maxNeeded reserve point = .start limit ∧ w.evacLimit = 0 ∧
      w.backoff = 0 := by
  unfold startEvacuation
  split
  · rename_i hstart
    dsimp only
    split
    · exact Or.inr ⟨_, rfl, hstart.2⟩
    · exact Or.inl rfl
  · exact Or.inl rfl

theorem stack_finish_le : ∀ {start : Nat} {sizes : List Nat}, ∀ b ∈ stack start sizes,
    b.ref + b.size ≤ start + sizes.sum
  | _, [] => List.forall_mem_nil _
  | start, size :: sizes => by
    refine List.forall_mem_cons.mpr ⟨?_, fun b hb => ?_⟩
    · rw [List.sum_cons]
      dsimp only
      omega
    · have hle := stack_finish_le b hb
      rw [List.sum_cons]
      omega

theorem stack_ref_le : ∀ {start : Nat} {sizes : List Nat}, ∀ b ∈ stack start sizes, start ≤ b.ref
  | _, [] => List.forall_mem_nil _
  | start, size :: sizes => by
    refine List.forall_mem_cons.mpr ⟨Nat.le_refl _, fun b hb => ?_⟩
    have hle := stack_ref_le b hb
    omega

theorem prepareEvacuation_limit (hne : (prepareEvacuation v).1 ≠ 0) : (prepareEvacuation v).1 = v.evac.limit := by
  unfold prepareEvacuation at hne ⊢
  split
  · rename_i hv
    rw [hv]
    rfl
  · rename_i limit hv
    rw [hv]
    rfl
  · rename_i limit backoff progress hv
    rw [hv] at hne
    dsimp only at hne ⊢
    split at hne
    · exact absurd rfl hne
    · rename_i hfar
      rw [if_neg hfar, hv]
      rfl

theorem prepareEvacuation_eq_zero {limit backoff : Nat} {progress : List Nat}
    (hv : v.evac = .record limit backoff progress)
    (hfar : limit < (v.arrays.map Block.ref).headD 0) : (prepareEvacuation v).1 = 0 := by
  unfold prepareEvacuation
  rw [hv]
  dsimp only
  split
  · rfl
  · rename_i hnot
    by_contra hne
    exact hnot ⟨Nat.pos_of_ne_zero hne, hfar⟩

theorem finishCommit_evacuable (hpage : cfg.page < minimalCompactionSize) (hdvd : cfg.page ∣ w.logicalSize)
    (hmem : reserve ∈ w.sizeMap) (haligned : ∀ e ∈ collect w freed c.version, Aligned e.block)
    (hpoint : ∀ l, point ≠ .start l)
    (hgoes : v.evac = point → (prepareEvacuation v).1 ≠ 0 → ∃ b ∈ w.usable, (prepareEvacuation v).1 < b.ref + b.size)
    (h : finishCommit cfg replaced c w freed nodes point maxNeeded reserve = some v) : v.Evacuable := by
  obtain ⟨es, hes, -, -, -, hevac⟩ := finishCommit_cases h
  have hpos : ∀ e ∈ es, 0 < e.size := fun e he =>
    (haligned e ((recreateFreelist_spec hes).1.mem_iff.mp he)).size_pos
  intro hne
  have habove : ∃ b ∈ w.usable, (prepareEvacuation v).1 < b.ref + b.size := by
    rcases startEvacuation_cases cfg w es freed maxNeeded reserve point with hsame | ⟨limit, hstart, -⟩
    · exact hgoes (hevac.trans hsame) hne
    · rw [prepareEvacuation_limit hne, hevac, hstart]
      exact start_above hpage hdvd hes hpos hmem hpoint hstart
  obtain ⟨b, hb, hlt⟩ := habove
  obtain ⟨e, he, hzero, hend⟩ := usable_kept hmem haligned h hb
  exact ⟨e, he, hzero, by omega⟩

theorem writeEvacuation_guarded {w' : Writer} {evac : List Block} (hg : Guarded w) (hok : w.Ok)
    (h : writeEvacuation cfg c w = some (w', evac, point)) :
    Guarded w' ∧ (∃ n, GoesOn { w with backoff := n } w' ∧ (w.backoff ≠ 0 → n = w.backoff)) ∧
      (w'.evacLimit ≠ 0 → ∀ b ∈ evac, b.ref + b.size ≤ w'.evacLimit) ∧ point.limit = w.evacLimit ∧
      (point = .none ∨ ∃ n, point = .record w.evacLimit n c.progress) := by
  unfold writeEvacuation at h
  split at h
  · dsimp only at h
    split at h
    · cases h
    rename_i w₁ bs hbs
    cases h
    have hg' : ∀ n, Guarded { w with backoff := n } := fun n => ⟨hg.below, hg.above, hg.behind, hg.idle⟩
    have hok' : ∀ n, Writer.Ok { w with backoff := n } := fun n => ⟨hok.aligned, hok.logical_mod, hok.limit_mod⟩
    have hsize : ∀ s ∈ [c.evacSize], 0 < s ∧ s % 8 = 0 := by simpa using c.evacSize_ok
    obtain ⟨hg₁, hon, hbelow⟩ := writeArrays_guarded (hg' _) (hok' _) hsize hbs
    refine ⟨hg₁, ⟨_, hon, fun hne => ?_⟩, hbelow, rfl, Or.inr ⟨_, rfl⟩⟩
    rw [if_neg (fun hzero => hne hzero.1)]
  · rename_i hidle
    cases h
    have hzero : w.evacLimit = 0 := by
      by_contra hne
      exact hidle (Or.inl hne)
    refine ⟨hg, ⟨_, GoesOn.refl _, fun _ => rfl⟩, fun hne => absurd hzero hne, hzero.symm, Or.inl rfl⟩

theorem hasRoom_of_double {start chunk size : Nat} (hpos : 0 < start) (h : 2 * size ≤ chunk) :
    HasRoom start (start + chunk) size := by
  have hup := upperSectionBoundary_eq start
  have hmod := Nat.mod_le start sectionSize
  unfold HasRoom
  omega

theorem usable_within {w₁ : Writer} {tree : List Block} (hwf : replaced.WF cfg)
    (h₁ : writeArrays cfg c.commitSize c.fuel c.writes (startWriter live replaced c) = some (w₁, tree)) {x : Nat}
    (hx : 0 < cover w₁.usable x) : 0 < x ∧ x < w₁.logicalSize := by
  have hok : (startWriter live replaced c).Ok := readInFreelist_ok hwf.free_aligned
    (prepareEvacuation_mod hwf.limit_mod) hwf.logical_mod
  obtain ⟨hgrows, -⟩ := writeArrays_spec c.writes_ok hok h₁
  have hle : replaced.logicalSize ≤ w₁.logicalSize := hgrows.logical_le
  have hcover := hgrows.cover_eq x
  have hlogical := hwf.logical_pos
  change _ = _ + (Block.mk replaced.logicalSize (w₁.logicalSize - replaced.logicalSize)).ind x at hcover
  by_cases hnew : 0 < (Block.mk replaced.logicalSize (w₁.logicalSize - replaced.logicalSize)).ind x
  · have hhas := ind_pos_iff.mp hnew
    simp only [Block.Has] at hhas
    omega
  · have hstart : 0 < cover (startWriter live replaced c).usable x := by omega
    obtain ⟨hpos, hlt⟩ := startWriter_within hwf hstart
    exact ⟨hpos, by omega⟩

theorem searchPart_eq_none_of_givenUp {fuel size : Nat} {w' : Writer} {b : Block} (hne : w.evacLimit ≠ 0)
    (hzero : w'.evacLimit = 0) (h : reserveFreeSpace cfg c.commitSize fuel size w = some (w', b)) :
    searchPart w.sizeMap size = none := by
  unfold reserveFreeSpace at h
  split at h
  · cases h
    exact absurd hzero hne
  · assumption

/-- **If no room below the limit was left for the evacuation array, the free list is not placed below it**: the free
list asks for twice as much at least, and what it finds is part of what there was. -/
theorem Writer.Ok.cover_last (hok : w.Ok) {e : Entry} (he : e ∈ w.underEvac) :
    0 < e.size ∧ 0 < cover w.usable (e.ref + e.size - 1) := by
  have hmem : e.block ∈ w.usable := List.mem_append_right _ (List.mem_map_of_mem he)
  have hpos : 0 < e.size := (hok.aligned e.block hmem).size_pos
  refine ⟨hpos, cover_pos_iff.mpr ⟨e.block, hmem, ?_⟩⟩
  simp only [Block.Has, Entry.block]
  omega

/-- The evacuation is given up for the evacuation array only where no entry has room for it. -/
theorem writeEvacuation_givenUp {w₂ : Writer} {evac : List Block} (hok : w.Ok) (hne : w.evacLimit ≠ 0)
    (h₂ : writeEvacuation cfg c w = some (w₂, evac, point)) (hzero : w₂.evacLimit = 0) :
    searchPart w.sizeMap c.evacSize = none ∧ Descends w w₂ := by
  unfold writeEvacuation at h₂
  rw [if_pos (Or.inl hne)] at h₂
  dsimp only at h₂
  split at h₂
  · cases h₂
  rename_i w' bs hbs
  cases h₂
  unfold writeArrays at hbs
  split at hbs
  · cases hbs
  rename_i w' b hget
  cases hbs
  have hokb : ∀ n, Writer.Ok { w with backoff := n } := fun n => ⟨hok.aligned, hok.logical_mod, hok.limit_mod⟩
  have hfrom := getFreeSpace_descends (hokb _) c.evacSize_ok.1 hget
  refine ⟨?_, hfrom⟩
  unfold getFreeSpace at hget
  split at hget
  · cases hget
  rename_i w₁ p hres
  cases hget
  have hgone : w₁.evacLimit = 0 := hzero
  have hempty := searchPart_eq_none_of_givenUp (by exact hne) hgone hres
  exact hempty

theorem reserve_behind {w₂ w₃ : Writer} {evac : List Block} {size : Nat} (hg : Guarded w) (hok : w.Ok)
    (hwithin : ∀ x, 0 < cover w.usable x → 0 < x ∧ x < w.logicalSize) (hne : w.evacLimit ≠ 0)
    (h₂ : writeEvacuation cfg c w = some (w₂, evac, point)) (hzero : w₂.evacLimit = 0)
    (hsize : 2 * c.evacSize ≤ size) (hsec : c.evacSize ≤ sectionSize)
    (h₃ : reserveFreeSpace cfg c.commitSize c.fuel size
      { w₂ with notFree := backdateLocked live c w₂.notFree } = some (w₃, reserve)) : w.evacLimit ≤ reserve.ref := by
  have hevacPos := c.evacSize_ok.1
  obtain ⟨hgrows, -, -⟩ := writeEvacuation_spec hok h₂
  obtain ⟨hg₂, -, -, -, -⟩ := writeEvacuation_guarded hg hok h₂
  have hok₂ : Writer.Ok { w₂ with notFree := backdateLocked live c w₂.notFree } :=
    ⟨hgrows.ok.aligned, hgrows.ok.logical_mod, hgrows.ok.limit_mod⟩
  have hfound := reserveFreeSpace_spec (by omega) hok₂ h₃
  have hfrom := reserveFreeSpace_descends hok₂ (by omega) h₃ reserve hfound.mem
  obtain ⟨hnone, hfrom₂⟩ := writeEvacuation_givenUp hok hne h₂ hzero
  have hsmall : ∀ d ∈ w.sizeMap, d.size < 2 * c.evacSize := by
    intro d hd
    by_contra hlarge
    have hfirst : 0 < cover w.usable d.ref := cover_pos_iff.mpr
      ⟨d, List.mem_append_left _ hd, Nat.le_refl _, by have := (hok.sizeMap_aligned d hd).size_pos; omega⟩
    have hsome := (isSome_searchPart hsec).mpr ⟨d, hd, Or.inr (by omega),
      hasRoom_of_double (hwithin _ hfirst).1 (by omega)⟩
    rw [hnone] at hsome
    cases hsome
  have hlimit : w.evacLimit ≤ w.logicalSize := by
    obtain ⟨e, he, hlt⟩ := hg.above hne
    obtain ⟨hpos, hlast⟩ := hok.cover_last he
    have hend := (hwithin _ hlast).2
    omega
  have hgrown := hgrows.logical_le
  have hreq := hfound.size_le
  rcases hfrom with ⟨d, hd, hle, hpart⟩ | hle
  · have hd : d ∈ w₂.sizeMap := by simpa [Writer.usable, hg₂.idle hzero] using hd
    rcases hfrom₂ d hd with ⟨f, hf, hle', hpart'⟩ | hle'
    · rcases List.mem_append.mp hf with hf | hf
      · have hlt := hsmall f hf
        omega
      · obtain ⟨e, he, rfl⟩ := List.mem_map.mp hf
        have hbehind := hg.behind e he
        simp only [Entry.block] at hle'
        omega
    · omega
  · dsimp only at hle
    omega

/-- What the code stores of an evacuation in progress: the top has its slot for it, number 11, and the array there has
the limit, the backoff and the position of the walk, one index for each level of the tree, up to fourteen. -/
def Recordable (replaced : Version) (c : Commit) : Prop :=
  (prepareEvacuation replaced).1 ≠ 0 → 12 ≤ c.topSize ∧ c.evacSize ≤ 136

instance (replaced : Version) (c : Commit) : Decidable (Recordable replaced c) := inferInstanceAs (Decidable (_ → _))

theorem writeGroup_evacuable {r : Committed} (hpage : cfg.page < minimalCompactionSize) (hs : Snapshots live)
    (hwf : replaced.WF cfg) (hnodes : replaced.nodes.Perm (c.kept ++ c.freed ++ c.lost)) (hev : replaced.Evacuable)
    (hrec : Recordable replaced c) (h : writeGroup cfg live replaced c = some r) : r.version.Evacuable := by
  obtain ⟨w₁, tree, w₂, evac, point, freed, w₃, reserve, h₁, h₂, hfreed, h₃, hwritten, maxNeeded, hcase⟩ :=
    writeGroup_cases h
  obtain ⟨hres, -⟩ := atReserve hwf h₁ h₂ h₃
  have hok₀ : (startWriter live replaced c).Ok := readInFreelist_ok hwf.free_aligned
    (prepareEvacuation_mod hwf.limit_mod) hwf.logical_mod
  obtain ⟨hgrows₁, -⟩ := writeArrays_spec c.writes_ok hok₀ h₁
  obtain ⟨hgrows₂, -, -⟩ := writeEvacuation_spec hgrows₁.ok h₂
  obtain ⟨hg₁, hon₁, -⟩ := writeArrays_guarded (startWriter_guarded live c hwf hev) hok₀ c.writes_ok h₁
  obtain ⟨hg₂, ⟨n, hon₂, -⟩, -, hlimit, hpoint⟩ := writeEvacuation_guarded hg₁ hgrows₁.ok h₂
  have hok₂ : Writer.Ok { w₂ with notFree := backdateLocked live c w₂.notFree } :=
    ⟨hgrows₂.ok.aligned, hgrows₂.ok.logical_mod, hgrows₂.ok.limit_mod⟩
  have hspec₃ := reserveFreeSpace_spec (by omega) hok₂ h₃
  have harrays : ∀ b ∈ replaced.arrays ++ c.freed, Aligned b := by
    intro b hb
    apply hwf.used_aligned
    rcases List.mem_append.mp hb with hb | hb
    · simp [Version.used, Version.reachable, hb]
    · have hnode := hnodes.mem_iff.mpr (List.mem_append_left _ (List.mem_append_right _ hb))
      simp [Version.used, Version.reachable, hnode]
  have hfreedAligned := (freeAll_spec hfreed harrays (by simp)).2
  have hlocked : ∀ e ∈ w₃.notFree, Aligned e.block := by
    rw [hres.notFree]
    intro e he
    obtain ⟨f, hf, hback⟩ := (backdateLocked_spec hs c replaced.version _).2 e he
    rw [hback.block_eq]
    exact hwf.free_aligned f (List.mem_of_mem_filter hf)
  rcases hcase with ⟨-, -, hfin⟩ | ⟨w₄, freed', hshrink, -, hfreed', hfin⟩
  · obtain ⟨es, -, -, -, hstack, hstarted⟩ := finishCommit_cases hfin
    have hnotStart : ∀ l, point ≠ .start l := by
      rintro l rfl
      rcases hpoint with hnone | ⟨k, hrecord⟩
      · cases hnone
      · cases hrecord
    refine finishCommit_evacuable hpage hres.page hres.mem (aligned_collect hres.ok.aligned hlocked hfreedAligned)
      hnotStart (fun hsame hne => ?_) hfin
    have hrecorded : (prepareEvacuation r.version).1 = w₁.evacLimit := by
      rw [prepareEvacuation_limit hne, hsame, hlimit]
    have hlimit₁ : w₁.evacLimit ≠ 0 := hrecorded ▸ hne
    rw [hrecorded]
    by_cases hzero : w₂.evacLimit = 0
    · -- given up for the evacuation array
      have hstart : w₁.evacLimit = (prepareEvacuation replaced).1 := hon₁.limit_eq hlimit₁
      obtain ⟨htop, hsmall⟩ := hrec (hstart ▸ hlimit₁)
      have hbehind := reserve_behind hg₁ hgrows₁.ok (fun x hx => usable_within hwf h₁ hx) hlimit₁ h₂ hzero
        (by
          unfold maxFreeSpaceNeeded getMaxByteSize sizePerFreeListEntry
          split <;> omega)
        (hsmall.trans (by decide)) h₃
      rcases Nat.lt_or_eq_of_le hbehind with hfar | hat
      · exfalso
        rcases hpoint with hnone | ⟨k, hrecord⟩
        · rw [hnone] at hlimit
          exact hlimit₁ hlimit.symm
        · apply hne
          apply prepareEvacuation_eq_zero (hsame.trans hrecord)
          rw [hstack]
          exact hfar
      · have hpos := hspec₃.size_le
        exact ⟨reserve, List.mem_append_left _ hres.mem, by omega⟩
    · -- what was kept back then is on offer still
      have hkept : w₂.evacLimit = w₁.evacLimit := hon₂.limit_eq hzero
      obtain ⟨e, he, hlt⟩ := hg₂.above hzero
      obtain ⟨hpos, hold⟩ := hgrows₂.ok.cover_last he
      have hlast : 0 < cover w₃.usable (e.ref + e.size - 1) := by
        have hcover := hspec₃.grows.cover_eq (e.ref + e.size - 1)
        rw [cover_nil] at hcover
        change _ = cover w₂.usable _ + _ at hcover
        omega
      obtain ⟨b, hb, hhas⟩ := cover_pos_iff.mp hlast
      have hend := hhas.2
      exact ⟨b, hb, by omega⟩
  · obtain ⟨hmap, hnot, -, -, hdvd, haligned, -⟩ := shrink_spec hres.ok hres.page hshrink
    have hfreedAligned' := (freeAll_spec hfreed' (fun b hb => hres.written_aligned b (List.mem_append_right _ hb))
      hfreedAligned).2
    refine finishCommit_evacuable hpage hdvd (hmap ▸ hres.mem)
      (aligned_collect haligned (hnot ▸ hlocked) hfreedAligned') (fun l hl => by cases hl) (fun hsame hne => ?_) hfin
    rw [prepareEvacuation_limit hne, hsame] at hne
    exact absurd rfl hne

end Commit

/-! ## What is handed out -/

/-- The blocks with which requests of the given sizes are served, each with the limit that is in force then. -/
def grants (cfg : Config) (commitSize fuel : Nat) : List Nat → Writer → List (Nat × Block)
  | [], _ => []
  | size :: sizes, w =>
    match getFreeSpace cfg commitSize fuel size w with
    | none => []
    | some (w, b) => (w.evacLimit, b) :: grants cfg commitSize fuel sizes w

/-- The blocks that `write_group` hands out: for the changed arrays, for the evacuation array, and the chunk for the
free lists and the top. -/
def commitGrants (cfg : Config) (live : List Version) (replaced : Version) (c : Commit) : List (Nat × Block) :=
  grants cfg c.commitSize c.fuel c.writes (startWriter live replaced c) ++
    match writeArrays cfg c.commitSize c.fuel c.writes (startWriter live replaced c) with
    | none => []
    | some (w, _) =>
      (if w.evacLimit ≠ 0 ∨ w.backoff ≠ 0 then
        grants cfg c.commitSize c.fuel [c.evacSize]
          { w with backoff := if w.backoff = 0 ∧ c.progress = [] then 1000 else w.backoff }
      else []) ++
        match writeEvacuation cfg c w with
        | none => []
        | some (w, _, _) =>
          match freeAll (replaced.arrays ++ c.freed) [] with
          | none => []
          | some freed =>
            match reserveFreeSpace cfg c.commitSize c.fuel
                (maxFreeSpaceNeeded c { w with notFree := backdateLocked live c w.notFree } freed + 8)
                { w with notFree := backdateLocked live c w.notFree } with
            | none => []
            | some (w, reserve) => [(w.evacLimit, reserve)]

/-- A block handed out under a limit ends at the limit or before. -/
def Below (g : Nat × Block) : Prop := g.1 ≠ 0 → g.2.ref + g.2.size ≤ g.1

section Grants

variable {cfg : Config} {live : List Version} {replaced : Version} {c : Commit}

theorem grants_below {commitSize fuel : Nat} : ∀ {sizes : List Nat} {w : Writer}, Guarded w → w.Ok →
    (∀ s ∈ sizes, 0 < s ∧ s % 8 = 0) → ∀ g ∈ grants cfg commitSize fuel sizes w, Below g
  | [], _, _, _, _ => List.forall_mem_nil _
  | size :: sizes, w, hg, hok, hs => by
    obtain ⟨⟨hpos, h8⟩, hsizes⟩ := List.forall_mem_cons.mp hs
    unfold grants
    split
    · exact List.forall_mem_nil _
    · rename_i w₁ b hget
      obtain ⟨hg₁, -, hb⟩ := getFreeSpace_guarded hg hok hpos hget
      have hok₁ := (getFreeSpace_spec hpos h8 hok hget).1.ok
      exact List.forall_mem_cons.mpr ⟨hb, grants_below hg₁ hok₁ hsizes⟩

theorem map_grants {commitSize fuel : Nat} : ∀ {sizes : List Nat} {w w' : Writer} {bs : List Block},
    writeArrays cfg commitSize fuel sizes w = some (w', bs) → (grants cfg commitSize fuel sizes w).map Prod.snd = bs
  | [], _, _, _, h => by
    cases h
    rfl
  | size :: sizes, w, w', bs, h => by
    unfold writeArrays at h
    split at h
    · cases h
    rename_i w₁ b hget
    split at h
    · cases h
    rename_i w₂ bs' hrest
    cases h
    have hgrants : grants cfg commitSize fuel (size :: sizes) w =
        (w₁.evacLimit, b) :: grants cfg commitSize fuel sizes w₁ := by
      rw [grants, hget]
    rw [hgrants]
    exact congrArg (b :: ·) (map_grants hrest)

/-- **Nothing above the limit is handed out while it is in force.** -/
theorem commitGrants_below (hwf : replaced.WF cfg) (hev : replaced.Evacuable) :
    ∀ g ∈ commitGrants cfg live replaced c, Below g := by
  have hok : (startWriter live replaced c).Ok := readInFreelist_ok hwf.free_aligned
    (prepareEvacuation_mod hwf.limit_mod) hwf.logical_mod
  have hguard := startWriter_guarded live c hwf hev
  unfold commitGrants
  refine List.forall_mem_append.mpr ⟨grants_below hguard hok c.writes_ok, ?_⟩
  split
  · exact List.forall_mem_nil _
  rename_i w₁ tree h₁
  obtain ⟨hg₁, -, -⟩ := writeArrays_guarded hguard hok c.writes_ok h₁
  have hok₁ := (writeArrays_spec c.writes_ok hok h₁).1.ok
  refine List.forall_mem_append.mpr ⟨?_, ?_⟩
  · split
    · refine grants_below ⟨hg₁.below, hg₁.above, hg₁.behind, hg₁.idle⟩
        ⟨hok₁.aligned, hok₁.logical_mod, hok₁.limit_mod⟩ ?_
      simpa using c.evacSize_ok
    · exact List.forall_mem_nil _
  split
  · exact List.forall_mem_nil _
  rename_i w₂ evac point h₂
  obtain ⟨hg₂, -⟩ := writeEvacuation_guarded hg₁ hok₁ h₂
  have hok₂ := (writeEvacuation_spec hok₁ h₂).1.ok
  split
  · exact List.forall_mem_nil _
  split
  · exact List.forall_mem_nil _
  rename_i w₃ reserve h₃
  have hok₂' : Writer.Ok { w₂ with notFree := backdateLocked live c w₂.notFree } :=
    ⟨hok₂.aligned, hok₂.logical_mod, hok₂.limit_mod⟩
  have hg₂' : Guarded { w₂ with notFree := backdateLocked live c w₂.notFree } :=
    ⟨hg₂.below, hg₂.above, hg₂.behind, hg₂.idle⟩
  obtain ⟨hg₃, -⟩ := reserveFreeSpace_guarded hg₂' hok₂' (by omega) h₃
  have hspec := reserveFreeSpace_spec (by omega) hok₂' h₃
  exact List.forall_mem_singleton.mpr fun hne => hg₃.finish_le hspec.grows.ok hne hspec.mem

theorem granted {r : Committed} (h : writeGroup cfg live replaced c = some r) :
    ∀ b ∈ r.written ++ r.version.arrays, ∃ g ∈ commitGrants cfg live replaced c,
      g.2.ref ≤ b.ref ∧ b.ref + b.size ≤ g.2.ref + g.2.size := by
  obtain ⟨w₁, tree, w₂, evac, point, freed, w₃, reserve, h₁, h₂, hfreed, h₃, hwritten, maxNeeded, hcase⟩ :=
    writeGroup_cases h
  have hevac : ((if w₁.evacLimit ≠ 0 ∨ w₁.backoff ≠ 0 then
      grants cfg c.commitSize c.fuel [c.evacSize]
        { w₁ with backoff := if w₁.backoff = 0 ∧ c.progress = [] then 1000 else w₁.backoff }
      else []).map Prod.snd) = evac := by
    unfold writeEvacuation at h₂
    split at h₂
    · rename_i hon
      dsimp only at h₂
      split at h₂
      · cases h₂
      rename_i w' bs hbs
      cases h₂
      rw [if_pos hon]
      exact map_grants hbs
    · rename_i hoff
      cases h₂
      rw [if_neg hoff]
      rfl
  have hgrants : (commitGrants cfg live replaced c).map Prod.snd = tree ++ (evac ++ [reserve]) := by
    unfold commitGrants
    rw [List.map_append, map_grants h₁, h₁]
    dsimp only
    rw [List.map_append, hevac, h₂]
    dsimp only
    rw [hfreed]
    dsimp only
    rw [h₃]
    rfl
  have hof : ∀ b d : Block, d ∈ tree ++ (evac ++ [reserve]) → d.ref ≤ b.ref → b.ref + b.size ≤ d.ref + d.size →
      ∃ g ∈ commitGrants cfg live replaced c, g.2.ref ≤ b.ref ∧ b.ref + b.size ≤ g.2.ref + g.2.size := by
    intro b d hd hle hend
    rw [← hgrants] at hd
    obtain ⟨g, hg, rfl⟩ := List.mem_map.mp hd
    exact ⟨g, hg, hle, hend⟩
  intro b hb
  rcases List.mem_append.mp hb with hb | hb
  · refine hof b b ?_ (Nat.le_refl _) (Nat.le_refl _)
    rw [hwritten] at hb
    rw [← List.append_assoc]
    exact List.mem_append_left _ hb
  · obtain ⟨sizes, hsum, hstack⟩ : ∃ sizes : List Nat, sizes.sum < reserve.size ∧
        r.version.arrays = stack reserve.ref sizes := by
      rcases hcase with ⟨-, -, hfin⟩ | ⟨w₄, freed', -, -, -, hfin⟩
      · obtain ⟨es, -, hsum, -, hstack, -⟩ := finishCommit_cases hfin
        exact ⟨_, hsum, hstack⟩
      · obtain ⟨es, -, hsum, -, hstack, -⟩ := finishCommit_cases hfin
        exact ⟨_, hsum, hstack⟩
    rw [hstack] at hb
    have hle := stack_finish_le b hb
    exact hof b reserve (by simp) (stack_ref_le b hb) (by omega)

end Grants

/-! ## Runs -/

/-- Commits of the kind `P`, one after the other, with the size of the file.  In between the file may be enlarged, or
cut to the logical size by the first process that opens it. -/
inductive Runs (cfg : Config) (P : List Version → Version → Commit → Prop) : List Version → Nat → Prop where
  | empty (version : Nat) {file : Nat} : 24 ≤ file → Runs cfg P [emptyFile version] file
  | resize {live : List Version} {file size : Nat} {newest : Version} : Runs cfg P live file →
      live.getLast? = some newest → file ≤ size ∨ size = roundUpToPageSize cfg newest.logicalSize → Runs cfg P live size
  | commit {live held : List Version} {file : Nat} {replaced : Version} {c : Commit} {r : Committed} :
      Runs cfg P live file → P held replaced c → c.fileSize = file → Commits cfg live held replaced c r →
      Runs cfg P (held ++ [r.version]) r.writer.fileSize

structure RunInv (cfg : Config) (live : List Version) (file : Nat) : Prop where
  inv : Inv cfg live
  on_file : ∀ newest, live.getLast? = some newest → newest.logicalSize ≤ file
  evacuable : ∀ newest, live.getLast? = some newest → newest.Evacuable

section Run

variable {cfg : Config} {live held : List Version} {file : Nat} {replaced : Version} {c : Commit} {r : Committed}

theorem runInv_of_runs (hpage : cfg.page < minimalCompactionSize)
    (h : Runs cfg (fun _ replaced c => Recordable replaced c) live file) : RunInv cfg live file := by
  induction h with
  | empty version hfile =>
    refine ⟨emptyFile_inv cfg version, ?_, ?_⟩
    · rintro newest ⟨⟩
      exact hfile
    · rintro newest ⟨⟩ hne
      exact absurd rfl hne
  | @resize live file size newest _ hnewest hsize ih =>
    refine ⟨ih.inv, fun v hv => ?_, ih.evacuable⟩
    obtain rfl := Option.some.inj (hnewest.symm.trans hv)
    have hold := ih.on_file newest hnewest
    have hround := le_roundUpToPageSize cfg newest.logicalSize
    omega
  | @commit live held file replaced c r _ hrec hfile hcommit ih =>
    have heffect := hcommit.effect ih.inv
    refine ⟨hcommit.inv ih.inv, ?_, ?_⟩
    · intro v hv
      rw [List.getLast?_append, List.getLast?_singleton, Option.some_or] at hv
      obtain rfl := Option.some.inj hv
      exact (heffect.file.within (hfile ▸ ih.on_file replaced hcommit.newest)).1
    · intro v hv
      rw [List.getLast?_append, List.getLast?_singleton, Option.some_or] at hv
      obtain rfl := Option.some.inj hv
      exact writeGroup_evacuable hpage (ih.inv.snapshots.sublist hcommit.held_sub)
        (ih.inv.wf replaced (List.mem_of_getLast? hcommit.newest)) hcommit.nodes
        (ih.evacuable replaced hcommit.newest) hrec hcommit.result

/-- What the logical size of a commit bounds, and what it is bounded by. -/
structure Contained (held : List Version) (r : Committed) : Prop where
  nodes : ∀ v ∈ held ++ [r.version], ∀ b ∈ v.reachable, b.ref + b.size ≤ r.version.logicalSize
  entries : ∀ e ∈ r.version.free, e.ref + e.size ≤ r.version.logicalSize
  on_file : r.version.logicalSize ≤ r.writer.fileSize

/-- What a commit writes lies in blocks that it has been handed, and those handed out under a limit lie below it. -/
structure BelowLimit (cfg : Config) (held : List Version) (replaced : Version) (c : Commit) (r : Committed) : Prop where
  granted : ∀ b ∈ r.written ++ r.version.arrays, ∃ g ∈ commitGrants cfg held replaced c,
    g.2.ref ≤ b.ref ∧ b.ref + b.size ≤ g.2.ref + g.2.size
  below : ∀ g ∈ commitGrants cfg held replaced c, g.1 ≠ 0 → g.2.ref + g.2.size ≤ g.1

theorem Commits.contained (h : Commits cfg live held replaced c r) (hinv : Inv cfg live)
    (hfile : replaced.logicalSize ≤ c.fileSize) : Contained held r := by
  have hinv' := h.inv hinv
  have heffect := h.effect hinv
  have hlast : (held ++ [r.version]).getLast? = some r.version := by simp
  have hmem : r.version ∈ held ++ [r.version] := by simp
  refine ⟨fun v hv b hb => ?_, fun e he => ?_, (heffect.file.within hfile).1⟩
  · -- the last byte of a node is in use, so it is not beyond the end
    have hused : b ∈ v.used := List.mem_append_left _ hb
    have hpos := ((hinv'.wf v hv).used_aligned b hused).size_pos
    by_contra hlt
    have hzero := hinv'.snapshots.beyond r.version hmem v hv (le_newest hinv'.snapshots.ascending hlast v hv)
      (b.ref + b.size - 1) (by omega)
    have hcover : 0 < cover v.used (b.ref + b.size - 1) := cover_pos_iff.mpr ⟨b, hused, by omega, by omega⟩
    omega
  · have hpos := (heffect.wf.free_aligned e he).size_pos
    simp only [Entry.block] at hpos
    have hcover : 0 < cover (r.version.used ++ r.version.free.map Entry.block) (e.ref + e.size - 1) := by
      refine cover_pos_iff.mpr ⟨e.block, List.mem_append_right _ (List.mem_map_of_mem he), ?_⟩
      simp only [Block.Has, Entry.block]
      omega
    have hlt := heffect.wf.lt_logicalSize hcover
    omega

end Run

/-! ## A free list at the limit -/

namespace Straddling

def commit (version : Nat) (kept freed : List Block) (words : List Nat) (file : Nat) : Commit :=
  { Small.commit version kept freed words with fileSize := file }

/-- An array of 1 MiB is written, -/
def filled : Committed where
  version := {
    version := 2
    logicalSize := 1052672
    nodes := [⟨24, 1048576⟩, ⟨1048600, 64⟩]
    arrays := [⟨1048664, 16⟩, ⟨1048680, 16⟩, ⟨1048696, 8⟩, ⟨1048704, 56⟩]
    lost := []
    free := [⟨1048760, 3912, 0⟩]
    evac := .none }
  written := [⟨24, 1048576⟩, ⟨1048600, 64⟩]
  writer := ⟨[⟨1048664, 4008⟩], [], [], 1052672, 1052672, 0, 0⟩

/-- and freed, -/
def emptied : Committed where
  version := {
    version := 3
    logicalSize := 1052672
    nodes := [⟨1048600, 64⟩, ⟨1048760, 16⟩]
    arrays := [⟨1048776, 24⟩, ⟨1048800, 24⟩, ⟨1048824, 16⟩, ⟨1048840, 56⟩]
    lost := []
    free := [⟨24, 1048576, 3⟩, ⟨1048664, 96, 3⟩, ⟨1048896, 3776, 0⟩]
    evac := .none }
  written := [⟨1048760, 16⟩]
  writer := ⟨[⟨1048776, 3896⟩], [], [], 1052672, 1052672, 0, 0⟩

/-- so that an evacuation starts, with a limit of 64 KiB. -/
def started : Committed where
  version := {
    version := 4
    logicalSize := 1052672
    nodes := [⟨1048600, 64⟩, ⟨1048760, 16⟩, ⟨1048896, 3776⟩]
    arrays := [⟨24, 24⟩, ⟨48, 24⟩, ⟨72, 16⟩, ⟨88, 56⟩]
    lost := []
    free := [⟨144, 1048456, 0⟩, ⟨1048664, 96, 0⟩, ⟨1048776, 120, 4⟩]
    evac := .start 65536 }
  written := [⟨1048896, 3776⟩]
  writer := ⟨[⟨1048664, 96⟩, ⟨24, 1048576⟩], [], [], 1052672, 1052672, 0, 0⟩

/-- A commit that finds room below the limit. -/
def within : Committed where
  version := {
    version := 5
    logicalSize := 1052672
    nodes := [⟨1048600, 64⟩, ⟨1048760, 16⟩, ⟨1048896, 3776⟩, ⟨144, 16⟩, ⟨160, 24⟩]
    arrays := [⟨184, 32⟩, ⟨216, 32⟩, ⟨248, 16⟩, ⟨264, 56⟩]
    lost := []
    free := [⟨24, 120, 5⟩, ⟨320, 65216, 0⟩, ⟨65536, 983064, 0⟩, ⟨1048664, 96, 0⟩, ⟨1048776, 120, 0⟩]
    evac := .record 65536 1000 [] }
  written := [⟨144, 16⟩, ⟨160, 24⟩]
  writer := ⟨[⟨184, 65352⟩], [], [⟨65536, 983064, 0⟩, ⟨1048664, 96, 0⟩, ⟨1048776, 120, 0⟩], 1052672,
    1052672, 65536, 1000⟩

/-- A commit with an array that takes all the space below the limit.  The free block across the limit has been split
there, and its second part is where the free list goes. -/
def across : Committed where
  version := {
    version := 5
    logicalSize := 1052672
    nodes := [⟨1048600, 64⟩, ⟨1048760, 16⟩, ⟨1048896, 3776⟩, ⟨144, 65392⟩, ⟨1048664, 24⟩]
    arrays := [⟨65536, 24⟩, ⟨65560, 24⟩, ⟨65584, 16⟩, ⟨65600, 56⟩]
    lost := []
    free := [⟨24, 120, 5⟩, ⟨65656, 982944, 0⟩, ⟨1048688, 72, 0⟩, ⟨1048776, 120, 0⟩]
    evac := .record 65536 1000 [] }
  written := [⟨144, 65392⟩, ⟨1048664, 24⟩]
  writer := ⟨[⟨1048688, 72⟩, ⟨1048776, 120⟩, ⟨65536, 983064⟩], [], [], 1052672, 1052672, 0, 10⟩

theorem filled_commits : Commits Small.cfg [emptyFile 1] [emptyFile 1] (emptyFile 1) (commit 2 [] [] [131071, 7] 4096)
    filled :=
  ⟨.refl _, rfl, rfl, .refl _, by decide, by decide +kernel⟩

theorem emptied_commits : Commits Small.cfg [emptyFile 1, filled.version] [filled.version] filled.version
    (commit 3 [⟨1048600, 64⟩] [⟨24, 1048576⟩] [1] 1052672) emptied :=
  ⟨by simp, rfl, rfl, .swap .., by decide, by decide +kernel⟩

theorem started_commits : Commits Small.cfg [filled.version, emptied.version] [emptied.version] emptied.version
    (commit 4 emptied.version.nodes [] [471] 1052672) started :=
  ⟨by simp, rfl, rfl, .refl _, by decide, by decide +kernel⟩

theorem within_commits : Commits Small.cfg [emptied.version, started.version] [started.version] started.version
    (commit 5 started.version.nodes [] [1] 1052672) within :=
  ⟨by simp, rfl, rfl, .refl _, by decide, by decide +kernel⟩

theorem across_commits : Commits Small.cfg [emptied.version, started.version] [started.version] started.version
    (commit 5 started.version.nodes [] [8173] 1052672) across :=
  ⟨by simp, rfl, rfl, .refl _, by decide, by decide +kernel⟩

theorem started_runs : Runs Small.cfg (fun _ replaced c => Recordable replaced c)
    [emptied.version, started.version] 1052672 := by
  have hempty : Runs Small.cfg (fun _ replaced c => Recordable replaced c) [emptyFile 1] 4096 := .empty 1 (by decide)
  have hfilled := hempty.commit (by decide) rfl filled_commits
  have hemptied := hfilled.commit (by decide) rfl emptied_commits
  exact hemptied.commit (by decide) rfl started_commits

end Straddling

end Llbt.FreeSpace
