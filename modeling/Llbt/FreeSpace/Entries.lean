import Llbt.FreeSpace.Reserve

/-!
# What a reservation does to the entries

`reserve_free_space` splits a chunk at a section boundary, releases what is kept back and adds extensions of the file.
Every entry that it leaves lies in an entry that was there before, or beyond the old end of the file, and a request of
at most half a section, which the first or the second extension serves, adds three entries at most.

* `reserveFreeSpace_descends` — where the entries come from;
* `reserveFreeSpace_count` — how many there are.
-/

set_option autoImplicit false

namespace Llbt.FreeSpace

open Blocks

/-! ## Where entries come from -/

/-- The entries `m'` are parts of the entries `m`. -/
def PartsOf (m' m : List Block) : Prop := ∀ c ∈ m', ∃ d ∈ m, d.ref ≤ c.ref ∧ c.size ≤ d.size

/-- The entries on offer are parts of those there were, kept back or not, or lie beyond the old end of the file. -/
def Descends (w w' : Writer) : Prop :=
  ∀ c ∈ w'.sizeMap, (∃ d ∈ w.usable, d.ref ≤ c.ref ∧ c.size ≤ d.size) ∨ w.logicalSize ≤ c.ref

section Parts

variable {cfg : Config} {commitSize size : Nat} {w w' : Writer} {b : Block}

theorem PartsOf.refl (m : List Block) : PartsOf m m := fun c hc => ⟨c, hc, Nat.le_refl _, Nat.le_refl _⟩

theorem length_emplace (b : Block) (m : List Block) : (emplace b m).length = m.length + 1 :=
  (emplace_perm b m).length_eq

theorem searchElement_parts {m m' : List Block} {b b' : Block} (h8 : b.ref % 8 = 0) (hb : b ∈ m)
    (h : searchElement m b size = some (m', b')) : m'.length ≤ m.length + 1 ∧ PartsOf m' m := by
  unfold searchElement at h
  dsimp only at h
  split at h
  · cases h
  rename_i hne
  obtain ⟨hle, hend, -, -⟩ := findSectionInRange_spec h8 rfl hne
  split at h
  · cases h
    refine ⟨?_, fun c hc => ?_⟩
    · rw [length_emplace, length_emplace, List.length_erase_of_mem hb]
      have hpos := List.length_pos_of_mem hb
      omega
    · rcases mem_emplace.mp hc with rfl | hc
      · exact ⟨b, hb, hle, Nat.sub_le _ _⟩
      rcases mem_emplace.mp hc with rfl | hc
      · exact ⟨b, hb, Nat.le_refl _, by dsimp only; omega⟩
      · exact ⟨c, List.mem_of_mem_erase hc, Nat.le_refl _, Nat.le_refl _⟩
  · cases h
    exact ⟨Nat.le_succ _, PartsOf.refl m⟩

theorem searchPart_parts {m m' : List Block} (hm : ∀ c ∈ m, Aligned c) (h : searchPart m size = some (m', b)) :
    m'.length ≤ m.length + 1 ∧ PartsOf m' m := by
  have hloop : ∀ l : List Block, (∀ c ∈ l, c ∈ m) → searchPartLoop m size l = some (m', b) →
      m'.length ≤ m.length + 1 ∧ PartsOf m' m := by
    intro l
    induction l with
    | nil =>
      intro _ h
      cases h
    | cons it rest ih =>
      intro hl h
      obtain ⟨hit, hrest⟩ := List.forall_mem_cons.mp hl
      unfold searchPartLoop at h
      split at h
      · split at h
        · rename_i found hfound
          cases h
          exact searchElement_parts (hm it hit).ref_mod hit hfound
        · exact ih hrest h
      · exact ih hrest h
  exact hloop _ (fun c hc => (List.dropWhile_sublist _).mem hc) h

theorem reserveLoop_extend_cases {fuel : Nat} (hevac : w.underEvac = [])
    (h : reserveLoop cfg commitSize size (fuel + 1) w = some (w', b)) :
    minimalNewSize commitSize size w ≤ maximumSize ∧
      ((∃ m, searchElement (extended cfg commitSize size w).sizeMap
          ⟨w.logicalSize, (extended cfg commitSize size w).logicalSize - w.logicalSize⟩ size = some (m, b) ∧
          w' = { extended cfg commitSize size w with sizeMap := m }) ∨
        searchElement (extended cfg commitSize size w).sizeMap
            ⟨w.logicalSize, (extended cfg commitSize size w).logicalSize - w.logicalSize⟩ size = none ∧
          reserveLoop cfg commitSize size fuel (extended cfg commitSize size w) = some (w', b)) := by
  rw [reserveLoop, if_neg (not_not.mpr hevac)] at h
  by_cases hmax : minimalNewSize commitSize size w ≤ maximumSize
  · refine ⟨hmax, ?_⟩
    rw [extendFreeSpace_eq hmax] at h
    dsimp only at h
    split at h
    · rename_i m b' hfound
      cases h
      exact Or.inl ⟨m, hfound, rfl⟩
    · rename_i hnone
      exact Or.inr ⟨hnone, h⟩
  · have hexceeded : extendFreeSpace cfg commitSize size w = none := by
      unfold extendFreeSpace
      dsimp only
      exact if_pos (Nat.lt_of_not_le hmax)
    rw [hexceeded] at h
    cases h

/-- What an extension makes of the entries: one more, and one more again where it is split. -/
theorem extended_parts {m : List Block} (hok : w.Ok)
    (h : searchElement (extended cfg commitSize size w).sizeMap
      ⟨w.logicalSize, (extended cfg commitSize size w).logicalSize - w.logicalSize⟩ size = some (m, b)) :
    m.length ≤ w.sizeMap.length + 2 ∧ ∀ c ∈ m, (∃ d ∈ w.sizeMap, d.ref ≤ c.ref ∧ c.size ≤ d.size) ∨
      w.logicalSize ≤ c.ref := by
  have hext : (extended cfg commitSize size w).sizeMap.length = w.sizeMap.length + 1 := length_emplace _ _
  have hmem : (⟨w.logicalSize, (extended cfg commitSize size w).logicalSize - w.logicalSize⟩ : Block) ∈
      (extended cfg commitSize size w).sizeMap := mem_emplace.mpr (Or.inl rfl)
  obtain ⟨hlen, hparts⟩ := searchElement_parts hok.logical_mod hmem h
  refine ⟨by omega, fun c hc => ?_⟩
  obtain ⟨d, hd, hle, hsize⟩ := hparts c hc
  rcases mem_emplace.mp hd with rfl | hd
  · exact Or.inr hle
  · exact Or.inl ⟨d, hd, hle, hsize⟩

theorem ok_extended (hok : w.Ok) (hsize : 0 < size) (hmax : minimalNewSize commitSize size w ≤ maximumSize) :
    (extended cfg commitSize size w).Ok :=
  (extendFreeSpace_grows hsize hok (extendFreeSpace_eq hmax)).1.ok

theorem reserveLoop_descends (hsize : 0 < size) : ∀ {fuel : Nat} {w : Writer}, w.Ok → w.underEvac = [] →
    reserveLoop cfg commitSize size fuel w = some (w', b) → Descends w w'
  | 0, _, _, _, h => by cases h
  | fuel + 1, w, hok, hevac, h => by
    obtain ⟨hmax, ⟨m, hfound, rfl⟩ | ⟨-, h⟩⟩ := reserveLoop_extend_cases hevac h
    · intro c hc
      refine ((extended_parts hok hfound).2 c hc).imp_left ?_
      rintro ⟨d, hd, hpart⟩
      exact ⟨d, List.mem_append_left _ hd, hpart⟩
    · intro c hc
      have hreq := required_le cfg commitSize size w
      rcases reserveLoop_descends hsize (ok_extended hok hsize hmax) hevac h c hc with ⟨d, hd, hle, hpart⟩ | hle
      · have hmem : d ∈ (extended cfg commitSize size w).sizeMap := by
          simpa [Writer.usable, extended, hevac] using hd
        rcases mem_emplace.mp hmem with rfl | hd
        · exact Or.inr hle
        · exact Or.inl ⟨d, List.mem_append_left _ hd, hle, hpart⟩
      · exact Or.inr (by omega)

theorem Descends.of_giveUpEvacuation (h : Descends (giveUpEvacuation w) w') : Descends w w' := by
  intro c hc
  refine (h c hc).imp_left ?_
  rintro ⟨d, hd, hpart⟩
  refine ⟨d, (usable_giveUpEvacuation w d).mp ?_, hpart⟩
  simpa [Writer.usable, giveUpEvacuation] using hd

theorem PartsOf.descends {m : List Block} (h : PartsOf m w.sizeMap) : Descends w { w with sizeMap := m } := by
  intro c hc
  obtain ⟨d, hd, hpart⟩ := h c hc
  exact Or.inl ⟨d, List.mem_append_left _ hd, hpart⟩

/-- **Where the entries come from** that a reservation leaves. -/
theorem reserveFreeSpace_descends {fuel : Nat} (hok : w.Ok) (hsize : 0 < size)
    (h : reserveFreeSpace cfg commitSize fuel size w = some (w', b)) : Descends w w' := by
  unfold reserveFreeSpace at h
  split at h
  · rename_i m b' hfound
    cases h
    exact (searchPart_parts hok.sizeMap_aligned hfound).2.descends
  by_cases hevac : w.underEvac = []
  · exact reserveLoop_descends hsize hok hevac h
  cases fuel with
  | zero => cases h
  | succ fuel =>
    have hgive := (giveUpEvacuation_grows cfg hok).ok
    rw [reserveLoop, if_pos hevac] at h
    dsimp only at h
    apply Descends.of_giveUpEvacuation
    split at h
    · rename_i m b' hfound
      cases h
      exact (searchPart_parts hgive.sizeMap_aligned hfound).2.descends
    · exact reserveLoop_descends hsize hgive rfl h

theorem getFreeSpace_descends {fuel : Nat} (hok : w.Ok) (hsize : 0 < size)
    (h : getFreeSpace cfg commitSize fuel size w = some (w', b)) : Descends w w' := by
  unfold getFreeSpace at h
  split at h
  · cases h
  rename_i w₁ p hres
  have hdesc := reserveFreeSpace_descends hok hsize hres
  have hmem := (reserveFreeSpace_spec hsize hok hres).mem
  cases h
  intro c hc
  have hpart : ∃ d ∈ w₁.sizeMap, d.ref ≤ c.ref ∧ c.size ≤ d.size := by
    dsimp only at hc
    split at hc
    · rcases mem_emplace.mp hc with rfl | hc
      · exact ⟨p, hmem, Nat.le_add_right _ _, Nat.sub_le _ _⟩
      · exact ⟨c, List.mem_of_mem_erase hc, Nat.le_refl _, Nat.le_refl _⟩
    · exact ⟨c, List.mem_of_mem_erase hc, Nat.le_refl _, Nat.le_refl _⟩
  obtain ⟨d, hd, hle, hs⟩ := hpart
  rcases hdesc d hd with ⟨e, he, hle', hs'⟩ | hle'
  · exact Or.inl ⟨e, he, hle'.trans hle, hs.trans hs'⟩
  · exact Or.inr (hle'.trans hle)

end Parts

/-! ## How many there are -/

/-- The entries of a writer that may be handed out. -/
def Writer.count (w : Writer) : Nat := w.sizeMap.length + w.underEvac.length

section Count

variable {cfg : Config} {commitSize size : Nat} {w w' : Writer} {b : Block}

theorem count_giveUpEvacuation (w : Writer) : (giveUpEvacuation w).count = w.count := by
  have hlen := (foldl_emplace_perm w.sizeMap w.underEvac).length_eq
  simpa [Writer.count, giveUpEvacuation] using hlen

/-- **A small request is served by the first extension or by the second**: the first one, if it has no place, ends in
the first half of its section. -/
theorem reserveLoop_count (hsize : 0 < size) (hhalf : size ≤ sectionSize / 2) (hok : w.Ok) (hpos : 0 < w.logicalSize)
    (hevac : w.underEvac = []) :
    ∀ {fuel : Nat}, reserveLoop cfg commitSize size fuel w = some (w', b) → w'.count ≤ w.count + 3
  | 0, h => by cases h
  | fuel + 1, h => by
    have hsec : sectionSize / 2 + sectionSize / 2 = sectionSize := by decide
    have hreq := required_le cfg commitSize size w
    have hmod := Nat.mod_lt w.logicalSize (show 0 < sectionSize by decide)
    have hup := upperSectionBoundary_eq w.logicalSize
    have hle := Nat.mod_le w.logicalSize sectionSize
    obtain ⟨hmax, ⟨m, hfound, rfl⟩ | ⟨hnone, h⟩⟩ := reserveLoop_extend_cases hevac h
    · have hlen := (extended_parts hok hfound).1
      show m.length + w.underEvac.length ≤ w.sizeMap.length + w.underEvac.length + 3
      omega
    · obtain ⟨hlate, hearly⟩ := searchElement_eq_none hpos (by omega) (by dsimp only; omega) hnone
      dsimp only at hlate hearly
      cases fuel with
      | zero => cases h
      | succ fuel =>
        have hreq' := required_le cfg commitSize size (extended cfg commitSize size w)
        obtain ⟨-, ⟨m, hfound, rfl⟩ | ⟨hnone', -⟩⟩ :=
          reserveLoop_extend_cases (w := extended cfg commitSize size w) hevac h
        · have hlen := (extended_parts (ok_extended hok hsize hmax) hfound).1
          have hext : (extended cfg commitSize size w).sizeMap.length = w.sizeMap.length + 1 := length_emplace _ _
          show m.length + w.underEvac.length ≤ w.sizeMap.length + w.underEvac.length + 3
          omega
        · exfalso
          have hmod' : (extended cfg commitSize size w).logicalSize % sectionSize < size := by
            have hdiv := Nat.div_add_mod w.logicalSize sectionSize
            have hstart : (extended cfg commitSize size w).logicalSize =
                (extended cfg commitSize size w).logicalSize - upperSectionBoundary w.logicalSize +
                  sectionSize * (w.logicalSize / sectionSize + 1) := by
              rw [Nat.mul_add, Nat.mul_one]
              omega
            rw [hstart, Nat.add_mul_mod_self_left, Nat.mod_eq_of_lt (by omega)]
            omega
          obtain ⟨hlate', -⟩ := searchElement_eq_none (by dsimp only; omega) (by omega) (by dsimp only; omega) hnone'
          dsimp only at hlate'
          omega

/-- **A reservation of at most half a section adds three entries at most.** -/
theorem reserveFreeSpace_count {fuel : Nat} (hsize : 0 < size) (hhalf : size ≤ sectionSize / 2) (hok : w.Ok)
    (hpos : 0 < w.logicalSize) (h : reserveFreeSpace cfg commitSize fuel size w = some (w', b)) :
    w'.count ≤ w.count + 3 := by
  have hfound : ∀ {u : Writer} {m : List Block}, u.Ok → searchPart u.sizeMap size = some (m, b) →
      Writer.count { u with sizeMap := m } ≤ u.count + 3 := by
    intro u m hu hpart
    have hlen := (searchPart_parts hu.sizeMap_aligned hpart).1
    show m.length + u.underEvac.length ≤ u.sizeMap.length + u.underEvac.length + 3
    omega
  unfold reserveFreeSpace at h
  split at h
  · rename_i m b' hpart
    cases h
    exact hfound hok hpart
  by_cases hevac : w.underEvac = []
  · exact reserveLoop_count hsize hhalf hok hpos hevac h
  cases fuel with
  | zero => cases h
  | succ fuel =>
    have hgive := (giveUpEvacuation_grows cfg hok).ok
    rw [reserveLoop, if_pos hevac] at h
    dsimp only at h
    rw [← count_giveUpEvacuation w]
    split at h
    · rename_i m b' hpart
      cases h
      exact hfound hgive hpart
    · exact reserveLoop_count (w := giveUpEvacuation w) hsize hhalf hgive hpos rfl h

theorem getFreeSpace_count {fuel : Nat} (hsize : 0 < size) (hhalf : size ≤ sectionSize / 2) (hok : w.Ok)
    (hpos : 0 < w.logicalSize) (h : getFreeSpace cfg commitSize fuel size w = some (w', b)) :
    w'.count ≤ w.count + 3 := by
  unfold getFreeSpace at h
  split at h
  · cases h
  rename_i w₁ p hres
  have hcount := reserveFreeSpace_count hsize hhalf hok hpos hres
  have hmem := (reserveFreeSpace_spec hsize hok hres).mem
  have hlen := List.length_erase_of_mem hmem
  have hone := List.length_pos_of_mem hmem
  cases h
  unfold Writer.count at hcount ⊢
  dsimp only
  split
  · rw [length_emplace]
    omega
  · omega

theorem writeArrays_count {fuel : Nat} : ∀ {sizes : List Nat} {w w' : Writer} {bs : List Block},
    (∀ s ∈ sizes, 0 < s ∧ s % 8 = 0) → (∀ s ∈ sizes, s ≤ sectionSize / 2) → w.Ok → 0 < w.logicalSize →
    writeArrays cfg commitSize fuel sizes w = some (w', bs) → w'.count ≤ w.count + 3 * sizes.length
  | [], w, _, _, _, _, _, _, h => by
    cases h
    exact Nat.le_refl _
  | size :: sizes, w, w', bs, hs, hhalf, hok, hpos, h => by
    obtain ⟨⟨hsize, h8⟩, hsizes⟩ := List.forall_mem_cons.mp hs
    obtain ⟨hhalf₁, hhalfs⟩ := List.forall_mem_cons.mp hhalf
    unfold writeArrays at h
    split at h
    · cases h
    rename_i w₁ b hget
    have hcount := getFreeSpace_count hsize hhalf₁ hok hpos hget
    have hgrows := (getFreeSpace_spec hsize h8 hok hget).1
    split at h
    · cases h
    rename_i w₂ bs' hrest
    have hrec := writeArrays_count hsizes hhalfs hgrows.ok (Nat.lt_of_lt_of_le hpos hgrows.logical_le) hrest
    cases h
    rw [List.length_cons]
    omega

end Count

/-! ## What a transaction frees -/

theorem length_mergeNext {b b' : Block} {next next' : List Block} (h : mergeNext b next = some (b', next')) :
    next'.length ≤ next.length := by
  cases next with
  | nil =>
    cases h
    exact Nat.le_refl _
  | cons c rest =>
    rw [mergeNext] at h
    split at h
    · split at h
      · cases h
        exact Nat.le_succ _
      · cases h
        exact Nat.le_refl _
    · cases h

theorem length_mergePrev {b : Block} {pre pre' : List Block} (h : mergePrev pre b = some pre') :
    pre'.length ≤ pre.length + 1 := by
  unfold mergePrev at h
  split at h
  · cases h
    exact Nat.succ_le_succ (Nat.zero_le _)
  · split at h
    · split at h
      · cases h
        simp
      · cases h
        simp
    · cases h

theorem length_doFree {m m' : List Block} {b : Block} (h : doFree m b = some m') : m'.length ≤ m.length + 1 := by
  unfold doFree at h
  split at h
  · split at h
    · cases h
    rename_i b' next hnext
    split at h
    · cases h
    rename_i pre hpre
    cases h
    have hsplit := congrArg List.length
      (List.takeWhile_append_dropWhile (p := fun c => decide (c.ref < b.ref)) (l := m))
    have hn := length_mergeNext hnext
    have hp := length_mergePrev hpre
    rw [List.length_append] at hsplit ⊢
    omega
  · cases h

theorem length_freeAll : ∀ {bs m m' : List Block}, freeAll bs m = some m' → m'.length ≤ m.length + bs.length
  | [], m, m', h => by
    cases h
    exact Nat.le_refl _
  | b :: bs, m, m', h => by
    unfold freeAll at h
    split at h
    · cases h
    rename_i m₁ hb
    have h₁ := length_doFree hb
    have h₂ := length_freeAll h
    rw [List.length_cons]
    omega

/-! ## The file and the free list -/

section File

variable {cfg : Config}

theorem Version.WF.logical_pos {v : Version} (h : v.WF cfg) : 0 < v.logicalSize := by
  have htiles := h.tiles 0
  have hhead : 0 < cover (v.used ++ v.free.map Entry.block) 0 :=
    cover_pos_iff.mpr ⟨fileHeader, by simp [Version.used, Version.reachable], by decide⟩
  by_contra hzero
  rw [if_neg hzero] at htiles
  omega

theorem Version.WF.lt_logicalSize {v : Version} (h : v.WF cfg) {x : Nat}
    (hx : 0 < cover (v.used ++ v.free.map Entry.block) x) : x < v.logicalSize := by
  have htiles := h.tiles x
  by_contra hge
  rw [if_neg hge] at htiles
  omega

/-- What a commit may use at its start lies behind the file header and before the end of the file. -/
theorem startWriter_within {live : List Version} {replaced : Version} {c : Commit} (hwf : replaced.WF cfg) {x : Nat}
    (hx : 0 < cover (startWriter live replaced c).usable x) : 0 < x ∧ x < replaced.logicalSize := by
  have hstart : cover (startWriter live replaced c).usable x =
      coverE (replaced.free.filter fun e => e.releasedAt ≤ oldestReachable live) x :=
    (readInFreelist_spec _ _ _ _ _ _).2 x
  have hfilter := coverE_filter replaced.free (oldestReachable live) x
  change coverE replaced.free x = _ at hfilter
  have htiles := hwf.tiles x
  have hfree : 0 < cover (replaced.free.map Entry.block) x := by unfold coverE at hfilter hstart; omega
  refine ⟨Nat.pos_of_ne_zero fun hzero => ?_, hwf.lt_logicalSize (by rw [cover_append]; omega)⟩
  have hhead : 0 < cover replaced.used x :=
    cover_pos_iff.mpr ⟨fileHeader, by simp [Version.used, Version.reachable], by rw [hzero]; decide⟩
  rw [cover_append] at htiles
  split at htiles <;> omega

end File

theorem reserve_mem_entries {w : Writer} {freed : List Block} {current : Nat} {es : List Entry} {reserve : Block}
    (hmem : reserve ∈ w.sizeMap) (h : recreateFreelist w freed current = some es) :
    ⟨reserve.ref, reserve.size, 0⟩ ∈ es := by
  rw [(recreateFreelist_spec h).1.mem_iff]
  simp only [collect, List.mem_append, List.mem_map]
  exact Or.inl (Or.inl (Or.inl ⟨reserve, hmem, rfl⟩))

end Llbt.FreeSpace
