import Llbt.FreeSpace.History

/-!
# Termination of `reserve_free_space`

A file extension may end up across the end of a section, in which case the loop extends the file again.  From the
second extension on the file grows by the same amount `step` each time, and where its end lies in its section decides
whether the request finds a place.

* `findSectionInRange_eq` — a request of at most a section fits at the start of the block or at the first boundary;
* `reserveLoop_isSome` — the end of the file moves through the section until there is room;
* `reserveLoop_stuck` — with steps of a whole section it stays where it is in its section;
* `reserves_iff` — a request is served exactly if a free block has a place for it, or the end of the file moves, or
  there is a place in what the first or the second extension adds.
-/

set_option autoImplicit false

namespace Llbt.FreeSpace

open Blocks

/-! ## A place in the new block -/

theorem upperSectionBoundary_eq (n : Nat) : upperSectionBoundary n = n - n % sectionSize + sectionSize := by
  unfold upperSectionBoundary
  have hdiv := Nat.div_add_mod n sectionSize
  rw [Nat.add_mul, Nat.one_mul, Nat.mul_comm]
  omega

/-- **Where a request of at most a section goes**: to the start of the block, or to the first boundary in it. -/
theorem findSectionInRange_eq {start chunk size : Nat} (hsize : size ≤ sectionSize) (hchunk : size ≤ chunk) :
    findSectionInRange start chunk size =
      if start + size ≤ upperSectionBoundary start then start
      else if upperSectionBoundary start + size ≤ start + chunk then upperSectionBoundary start else 0 := by
  have hnext : upperSectionBoundary (upperSectionBoundary start) = upperSectionBoundary start + sectionSize := by
    have hmod : upperSectionBoundary start % sectionSize = 0 := Nat.mul_mod_left _ _
    rw [upperSectionBoundary_eq (upperSectionBoundary start), hmod]
    omega
  unfold findSectionInRange findSectionLoop
  rw [if_pos (by omega)]
  by_cases hfits : start + size ≤ upperSectionBoundary start
  · rw [if_pos hfits, if_pos hfits]
  · rw [if_neg hfits, if_neg hfits]
    unfold findSectionLoop
    by_cases hsecond : upperSectionBoundary start + size ≤ start + chunk
    · rw [if_pos hsecond, if_pos hsecond, if_pos (by omega)]
    · rw [if_neg hsecond, if_neg hsecond]

/-- Between the two positions there is a place for the request that lies in one section.  The place at position 0 is
none: 0 stands for failure. -/
def HasRoom (start finish size : Nat) : Prop :=
  0 < start ∧ (start % sectionSize + size ≤ sectionSize ∨ upperSectionBoundary start + size ≤ finish)

theorem isSome_searchElement {m : List Block} {b : Block} {size : Nat} (hsize : size ≤ sectionSize)
    (hchunk : size ≤ b.size) : (searchElement m b size).isSome ↔ HasRoom b.ref (b.ref + b.size) size := by
  have hup := upperSectionBoundary_eq b.ref
  have hmod := Nat.mod_le b.ref sectionSize
  have hsec : 0 < sectionSize := by decide
  have hplace : (searchElement m b size).isSome ↔ findSectionInRange b.ref b.size size ≠ 0 := by
    unfold searchElement
    dsimp only
    split
    · rename_i hzero
      simp [hzero]
    · rename_i hne
      split <;> simp [hne]
  rw [hplace, findSectionInRange_eq hsize hchunk]
  unfold HasRoom
  split
  · omega
  · split <;> omega

theorem searchElement_eq_none {m : List Block} {b : Block} {size : Nat} (hpos : 0 < b.ref)
    (hsize : size ≤ sectionSize) (hchunk : size ≤ b.size) (h : searchElement m b size = none) :
    sectionSize < b.ref % sectionSize + size ∧ b.ref % sectionSize + b.size < sectionSize + size := by
  have hup := upperSectionBoundary_eq b.ref
  have hmod := Nat.mod_le b.ref sectionSize
  have hroom : ¬ HasRoom b.ref (b.ref + b.size) size := by
    rw [← isSome_searchElement (m := m) hsize hchunk, h]
    simp
  unfold HasRoom at hroom
  omega

/-! ## A place in a free block -/

/-- The blocks that `search_free_space_in_part_of_freelist` takes: of the requested size or of at least twice that, with
a place in one section. -/
def Suits (size : Nat) (b : Block) : Prop :=
  (b.size = size ∨ 2 * size ≤ b.size) ∧ HasRoom b.ref (b.ref + b.size) size

theorem isSome_searchPart {m : List Block} {size : Nat} (hsize : size ≤ sectionSize) :
    (searchPart m size).isSome ↔ ∃ b ∈ m, Suits size b := by
  have hloop : ∀ l : List Block, (searchPartLoop m size l).isSome ↔ ∃ b ∈ l, Suits size b := by
    intro l
    induction l with
    | nil => simp [searchPartLoop]
    | cons it rest ih =>
      unfold searchPartLoop
      rw [List.exists_mem_cons_iff]
      split
      · rename_i hit
        have hroom := isSome_searchElement (m := m) hsize (show size ≤ it.size by omega)
        have hsuits : Suits size it ↔ (searchElement m it size).isSome := by
          rw [hroom]
          exact ⟨fun h => h.2, fun h => ⟨hit, h⟩⟩
        rw [hsuits]
        split
        · rename_i found hfound
          simp [hfound]
        · rename_i hnone
          rw [ih, hnone]
          simp
      · rename_i hit
        rw [ih]
        exact ⟨Or.inr, fun h => h.resolve_left fun hsuits => hit hsuits.1⟩
  -- what is left out in front is smaller than the request
  have hsplit := List.takeWhile_append_dropWhile (p := fun b : Block => decide (b.size < size)) (l := m)
  rw [searchPart, hloop]
  constructor
  · rintro ⟨b, hb, hsuits⟩
    exact ⟨b, (List.dropWhile_sublist _).mem hb, hsuits⟩
  · rintro ⟨b, hb, hsuits⟩
    refine ⟨b, ?_, hsuits⟩
    rw [← hsplit] at hb
    refine (List.mem_append.mp hb).resolve_left fun htake => ?_
    have hlt : b.size < size := of_decide_eq_true
      (List.mem_takeWhile_imp (p := fun c : Block => decide (c.size < size)) htake)
    have hge := hsuits.1
    omega

/-! ## The growth of the file -/

section Growth

variable (cfg : Config) (commitSize size : Nat)

/-- What the file grows by, once it has 1 MiB and is no larger than its contents. -/
def growth : Nat := max (max growthBoundary (commitSize + commitSize / 8)) size

/-- The growth in whole pages. -/
def step : Nat := roundUpToPageSize cfg (growth commitSize size)

/-- The largest size that `extend_free_space` allows. -/
def maximumSize : Nat := (2 ^ 64 - 1) / 4 * 3

end Growth

variable {cfg : Config} {commitSize size : Nat} {w : Writer}

theorem roundUpToPageSize_add {n : Nat} (hn : cfg.page ∣ n) (m : Nat) :
    roundUpToPageSize cfg (n + m) = n + roundUpToPageSize cfg m := by
  obtain ⟨k, rfl⟩ := hn
  unfold roundUpToPageSize
  rw [show cfg.page * k + m + cfg.page - 1 = m + cfg.page - 1 + cfg.page * k by
    have := cfg.page_pos
    omega, Nat.add_mul_div_left _ _ cfg.page_pos, Nat.add_mul, Nat.mul_comm k cfg.page]
  omega

/-- The writer after an extension of the file. -/
def extended (cfg : Config) (commitSize size : Nat) (w : Writer) : Writer :=
  let newFileSize := roundUpToPageSize cfg (minimalNewSize commitSize size w)
  { w with
    sizeMap := emplace ⟨w.logicalSize, newFileSize - w.logicalSize⟩ w.sizeMap
    logicalSize := newFileSize
    fileSize := max w.fileSize newFileSize }

theorem extendFreeSpace_eq (h : minimalNewSize commitSize size w ≤ maximumSize) :
    extendFreeSpace cfg commitSize size w =
      some (extended cfg commitSize size w,
        ⟨w.logicalSize, (extended cfg commitSize size w).logicalSize - w.logicalSize⟩) := by
  have hclip : roundUpToPageSize cfg (minimalNewSize commitSize size w) ≤
      alignSizeToSectionBoundary (minimalNewSize commitSize size w) :=
    roundUpToPageSize_le cfg (le_alignSizeToSectionBoundary _) (dvd_alignSizeToSectionBoundary cfg _)
  have hle : ¬ minimalNewSize commitSize size w > (2 ^ 64 - 1) / 4 * 3 := Nat.not_lt_of_le h
  unfold extendFreeSpace extended
  dsimp only
  rw [if_neg hle, if_neg (Nat.not_lt_of_le hclip)]

theorem required_le (cfg : Config) (commitSize size : Nat) (w : Writer) :
    w.logicalSize + size ≤ (extended cfg commitSize size w).logicalSize := by
  have hround := le_roundUpToPageSize cfg (minimalNewSize commitSize size w)
  have hmin : w.logicalSize + size ≤ minimalNewSize commitSize size w := by
    unfold minimalNewSize
    dsimp only
    split <;> split <;> omega
  exact hmin.trans hround

/-- **One round of the loop** with nothing kept back: it ends, or the search has rejected the new block. -/
theorem reserveLoop_round (cfg : Config) (hevac : w.underEvac = [])
    (hmax : minimalNewSize commitSize size w ≤ maximumSize)
    (hsize : size ≤ sectionSize) (fuel : Nat) :
    (∃ r, reserveLoop cfg commitSize size (fuel + 1) w = some r) ∨
      reserveLoop cfg commitSize size (fuel + 1) w =
          reserveLoop cfg commitSize size fuel (extended cfg commitSize size w) ∧
        (0 < w.logicalSize → sectionSize < w.logicalSize % sectionSize + size ∧
          (extended cfg commitSize size w).logicalSize < upperSectionBoundary w.logicalSize + size) := by
  have hreq := required_le cfg commitSize size w
  rw [reserveLoop, if_neg (not_not.mpr hevac), extendFreeSpace_eq hmax]
  dsimp only
  cases hfound : searchElement (extended cfg commitSize size w).sizeMap
      ⟨w.logicalSize, (extended cfg commitSize size w).logicalSize - w.logicalSize⟩ size with
  | some found => exact Or.inl ⟨_, rfl⟩
  | none =>
    refine Or.inr ⟨rfl, fun hpos => ?_⟩
    have hup := upperSectionBoundary_eq w.logicalSize
    have hmod := Nat.mod_le w.logicalSize sectionSize
    obtain ⟨hlate, hearly⟩ := searchElement_eq_none hpos hsize (by dsimp only; omega) hfound
    dsimp only at hearly
    exact ⟨hlate, by omega⟩

/-- A writer after an extension of the file: nothing is kept back, the file is as large as its contents, and it has
whole pages. -/
structure Steady (cfg : Config) (w : Writer) : Prop where
  underEvac : w.underEvac = []
  large : growthBoundary ≤ w.logicalSize
  page : cfg.page ∣ w.logicalSize
  fileSize : w.fileSize = w.logicalSize

theorem steady_extended (hevac : w.underEvac = [])
    (hlarge : growthBoundary ≤ (extended cfg commitSize size w).logicalSize) :
    Steady cfg (extended cfg commitSize size w) := by
  refine ⟨hevac, hlarge, dvd_roundUpToPageSize cfg _, ?_⟩
  have hround := le_roundUpToPageSize cfg (minimalNewSize commitSize size w)
  have hmin : w.fileSize ≤ minimalNewSize commitSize size w := by
    unfold minimalNewSize
    dsimp only
    split <;> split <;> omega
  unfold extended
  dsimp only
  omega

theorem Steady.minimalNewSize (h : Steady cfg w) :
    minimalNewSize commitSize size w = w.logicalSize + growth commitSize size := by
  have hlarge := h.large
  unfold FreeSpace.minimalNewSize growth
  dsimp only
  rw [if_neg (Nat.not_lt_of_le hlarge), h.fileSize]
  split <;> omega

theorem Steady.logicalSize_extended (h : Steady cfg w) (commitSize size : Nat) :
    (extended cfg commitSize size w).logicalSize = w.logicalSize + step cfg commitSize size := by
  show roundUpToPageSize cfg (FreeSpace.minimalNewSize commitSize size w) = _
  rw [h.minimalNewSize, roundUpToPageSize_add h.page]
  rfl

theorem growth_le_step (cfg : Config) (commitSize size : Nat) : growth commitSize size ≤ step cfg commitSize size :=
  le_roundUpToPageSize cfg _

/-! ## Termination -/

/-- The requests that are served from every state: at most half a section, or the end of the file moves through the
section. -/
def Serviceable (cfg : Config) (commitSize size : Nat) : Prop :=
  size ≤ sectionSize / 2 ∨ step cfg commitSize size ≠ sectionSize ∨ cfg.page = sectionSize

instance : Decidable (Serviceable cfg commitSize size) := inferInstanceAs (Decidable (_ ∨ _ ∨ _))

/-- How far the end of the file is from where there is room: it moves down with small steps and up with large ones. -/
def rank (cfg : Config) (commitSize size : Nat) (w : Writer) : Nat :=
  if step cfg commitSize size < sectionSize then w.logicalSize % sectionSize
  else sectionSize - w.logicalSize % sectionSize

/-- **The loop ends.**  Every rejected extension takes the end of the file closer to where there is room. -/
theorem reserveLoop_isSome (hservice : Serviceable cfg commitSize size) (hsize : size ≤ sectionSize) :
    ∀ (n : Nat) {w : Writer}, Steady cfg w → rank cfg commitSize size w ≤ n →
      w.logicalSize + n * (2 * sectionSize) + growth commitSize size ≤ maximumSize →
      ∃ fuel r, reserveLoop cfg commitSize size fuel w = some r
  | n, w, hw, hrank, hmax => by
    have hmin : minimalNewSize commitSize size w ≤ maximumSize := by
      rw [hw.minimalNewSize]
      omega
    by_cases hone : ∃ r, reserveLoop cfg commitSize size 1 w = some r
    · exact ⟨1, hone⟩
    have hround := fun fuel => reserveLoop_round cfg hw.underEvac hmin hsize fuel
    have hpos : 0 < w.logicalSize := Nat.lt_of_lt_of_le (by decide) hw.large
    obtain ⟨hlate, hearly⟩ := ((hround 0).resolve_left hone).2 hpos
    have hlogical := hw.logicalSize_extended commitSize size
    have hup := upperSectionBoundary_eq w.logicalSize
    have hmod := Nat.mod_lt w.logicalSize (show 0 < sectionSize by decide)
    have hle := Nat.mod_le w.logicalSize sectionSize
    have hgrow := growth_le_step cfg commitSize size
    have hsizeg : size ≤ growth commitSize size := le_max_right _ _
    -- the end of the file lies in the next section, moved by the difference between a step and a section
    have hmod' : (extended cfg commitSize size w).logicalSize % sectionSize =
        w.logicalSize % sectionSize + step cfg commitSize size - sectionSize := by
      have hdiv := Nat.div_add_mod w.logicalSize sectionSize
      rw [hlogical, show w.logicalSize + step cfg commitSize size =
        w.logicalSize % sectionSize + step cfg commitSize size - sectionSize +
          sectionSize * (w.logicalSize / sectionSize + 1) by rw [Nat.mul_add, Nat.mul_one]; omega,
        Nat.add_mul_mod_self_left, Nat.mod_eq_of_lt (by omega)]
    have hne : step cfg commitSize size ≠ sectionSize := by
      rcases hservice with hhalf | hne | hpage
      · omega
      · exact hne
      · have hzero : w.logicalSize % sectionSize = 0 := Nat.mod_eq_zero_of_dvd (hpage ▸ hw.page)
        omega
    have hcloser : rank cfg commitSize size (extended cfg commitSize size w) < rank cfg commitSize size w := by
      unfold rank
      rw [hmod']
      split <;> omega
    cases n with
    | zero => omega
    | succ n =>
      have hsteady : Steady cfg (extended cfg commitSize size w) := by
        refine steady_extended hw.underEvac ?_
        have hlarge := hw.large
        omega
      obtain ⟨fuel, r, hr⟩ := reserveLoop_isSome hservice hsize n hsteady (by omega) (by
        rw [hlogical]
        rw [Nat.succ_mul] at hmax
        omega)
      refine ⟨fuel + 1, ?_⟩
      rcases hround fuel with hdone | ⟨hagain, -⟩
      · exact hdone
      · exact ⟨r, hagain.trans hr⟩

/-- Sizes of at most 1 EiB, far from the maximum. -/
structure Moderate (commitSize : Nat) (w : Writer) : Prop where
  logicalSize : w.logicalSize ≤ 2 ^ 60
  fileSize : w.fileSize ≤ 2 ^ 60
  commitSize : commitSize ≤ 2 ^ 60

theorem growth_le (hcommit : commitSize ≤ 2 ^ 60) (hsize : size ≤ sectionSize) :
    growth commitSize size ≤ 2 ^ 60 + 2 ^ 57 := by
  unfold growth growthBoundary
  unfold sectionSize at hsize
  omega

theorem minimalNewSize_le (commitSize size : Nat) (w : Writer) :
    minimalNewSize commitSize size w ≤ w.logicalSize + w.fileSize + growth commitSize size := by
  unfold minimalNewSize growth
  dsimp only
  split <;> split <;> omega

theorem logicalSize_extended_le (cfg : Config) (commitSize size : Nat) (w : Writer) :
    (extended cfg commitSize size w).logicalSize ≤ w.logicalSize + w.fileSize + growth commitSize size +
      sectionSize := by
  have hmin := minimalNewSize_le commitSize size w
  have hpage : cfg.page ≤ sectionSize := Nat.le_of_dvd (by decide) cfg.page_dvd
  have hround : roundUpToPageSize cfg (minimalNewSize commitSize size w) ≤
      minimalNewSize commitSize size w + cfg.page := by
    unfold roundUpToPageSize
    have hdiv := Nat.div_mul_le_self (minimalNewSize commitSize size w + cfg.page - 1) cfg.page
    omega
  show roundUpToPageSize cfg (minimalNewSize commitSize size w) ≤ _
  omega

theorem reserveLoop_isSome_of_extending (hservice : Serviceable cfg commitSize size) (hsize : size ≤ sectionSize)
    (hcommit : commitSize ≤ 2 ^ 60) : ∀ {w : Writer}, w.underEvac = [] → 0 < w.logicalSize →
      w.logicalSize + w.fileSize ≤ 2 ^ 62 + 2 ^ 59 →
      ∃ fuel r, reserveLoop cfg commitSize size fuel w = some r := by
  intro w hevac hpos hw
  have hgrowth := growth_le hcommit hsize
  have hmin := minimalNewSize_le commitSize size w
  have hround := fun fuel => reserveLoop_round cfg hevac
    (hmin.trans (by unfold maximumSize; omega)) hsize fuel
  by_cases hone : ∃ r, reserveLoop cfg commitSize size 1 w = some r
  · exact ⟨1, hone⟩
  obtain ⟨hlate, -⟩ := ((hround 0).resolve_left hone).2 hpos
  have hreq := required_le cfg commitSize size w
  have hend := logicalSize_extended_le cfg commitSize size w
  have hle := Nat.mod_le w.logicalSize sectionSize
  have hsteady : Steady cfg (extended cfg commitSize size w) := by
    refine steady_extended hevac ?_
    have hsec : growthBoundary ≤ sectionSize := by decide
    omega
  have hrank : rank cfg commitSize size (extended cfg commitSize size w) ≤ sectionSize := by
    have hmod := Nat.mod_lt (extended cfg commitSize size w).logicalSize (show 0 < sectionSize by decide)
    unfold rank
    split <;> omega
  obtain ⟨fuel, r, hr⟩ := reserveLoop_isSome hservice hsize sectionSize hsteady hrank (by
    unfold maximumSize
    unfold sectionSize at hend ⊢
    omega)
  refine ⟨fuel + 1, ?_⟩
  rcases hround fuel with hdone | ⟨hagain, -⟩
  · exact hdone
  · exact ⟨r, hagain.trans hr⟩

theorem reserveLoop_isSome_of_moderate (hservice : Serviceable cfg commitSize size) (hpos : 0 < size)
    (hsize : size ≤ sectionSize) (hevac : w.underEvac = []) (hw : Moderate commitSize w) :
    ∃ fuel r, reserveLoop cfg commitSize size fuel w = some r := by
  obtain ⟨hlogical, hfile, hcommit⟩ := hw
  by_cases hempty : 0 < w.logicalSize
  · exact reserveLoop_isSome_of_extending hservice hsize hcommit hevac hempty (by omega)
  have hgrowth := growth_le hcommit hsize
  have hmin := minimalNewSize_le commitSize size w
  have hreq := required_le cfg commitSize size w
  have hend := logicalSize_extended_le cfg commitSize size w
  have hfile' : (extended cfg commitSize size w).fileSize ≤
    max w.fileSize (extended cfg commitSize size w).logicalSize :=
    Nat.le_refl _
  obtain ⟨fuel, r, hr⟩ := reserveLoop_isSome_of_extending (w := extended cfg commitSize size w) hservice hsize hcommit
    hevac (by omega) (by unfold sectionSize at hend; omega)
  refine ⟨fuel + 1, ?_⟩
  rcases reserveLoop_round cfg hevac (hmin.trans (by unfold maximumSize; omega)) hsize fuel with
    hdone | ⟨hagain, -⟩
  · exact hdone
  · exact ⟨r, hagain.trans hr⟩

theorem reserveFreeSpace_isSome (hservice : Serviceable cfg commitSize size) (hpos : 0 < size)
    (hsize : size ≤ sectionSize) (hw : Moderate commitSize w) :
    ∃ fuel r, reserveFreeSpace cfg commitSize fuel size w = some r := by
  unfold reserveFreeSpace
  cases hpart : searchPart w.sizeMap size with
  | some found => exact ⟨0, _, rfl⟩
  | none =>
    dsimp only
    by_cases hevac : w.underEvac = []
    · exact reserveLoop_isSome_of_moderate hservice hpos hsize hevac hw
    · obtain ⟨fuel, r, hr⟩ := reserveLoop_isSome_of_moderate (w := giveUpEvacuation w) hservice hpos hsize rfl
        ⟨hw.logicalSize, hw.fileSize, hw.commitSize⟩
      refine ⟨fuel + 1, ?_⟩
      rw [reserveLoop, if_pos hevac]
      dsimp only
      cases searchPart (giveUpEvacuation w).sizeMap size with
      | some found => exact ⟨_, rfl⟩
      | none => exact ⟨r, hr⟩

/-! ## When it does not end -/

theorem hasRoom_add_section {start : Nat} (hpos : 0 < start) (size : Nat) :
    HasRoom (start + sectionSize) (start + sectionSize + sectionSize) size ↔
      HasRoom start (start + sectionSize) size := by
  have hup := upperSectionBoundary_eq start
  have hup' := upperSectionBoundary_eq (start + sectionSize)
  have hmod := Nat.mod_le start sectionSize
  rw [Nat.add_mod_right] at hup'
  unfold HasRoom
  rw [Nat.add_mod_right]
  omega

/-- **With steps of one section the end of the file stays where it is in its section**, and so does the lack of room. -/
theorem reserveLoop_stuck (hstep : step cfg commitSize size = sectionSize) (hsize : size ≤ sectionSize) :
    ∀ (fuel : Nat) {w : Writer}, Steady cfg w → ¬ HasRoom w.logicalSize (w.logicalSize + sectionSize) size →
      reserveLoop cfg commitSize size fuel w = none
  | 0, _, _, _ => rfl
  | fuel + 1, w, hw, hroom => by
    have hlogical := hw.logicalSize_extended commitSize size
    have hlarge := hw.large
    have hpos : 0 < w.logicalSize := Nat.lt_of_lt_of_le (by decide) hlarge
    rw [hstep] at hlogical
    rw [reserveLoop, if_neg (not_not.mpr hw.underEvac)]
    by_cases hmax : minimalNewSize commitSize size w ≤ maximumSize
    · rw [extendFreeSpace_eq hmax]
      dsimp only
      rw [hlogical, Nat.add_sub_cancel_left]
      have hnone : searchElement (extended cfg commitSize size w).sizeMap ⟨w.logicalSize, sectionSize⟩ size = none := by
        rw [← Option.not_isSome_iff_eq_none, isSome_searchElement hsize hsize]
        exact hroom
      rw [hnone]
      refine reserveLoop_stuck hstep hsize fuel (steady_extended hw.underEvac (by omega)) ?_
      rw [hlogical, hasRoom_add_section hpos]
      exact hroom
    · have hexceeded : extendFreeSpace cfg commitSize size w = none := by
        unfold extendFreeSpace
        dsimp only
        exact if_pos (Nat.lt_of_not_le hmax)
      rw [hexceeded]

/-- The size of the file after the first extension. -/
def firstSize (cfg : Config) (commitSize size : Nat) (w : Writer) : Nat :=
  roundUpToPageSize cfg (minimalNewSize commitSize size w)

/-- The requests that are served in the state `w` of the writer. -/
def Reservable (cfg : Config) (commitSize size : Nat) (w : Writer) : Prop :=
  (∃ b ∈ w.usable, Suits size b) ∨ Serviceable cfg commitSize size ∨
    HasRoom w.logicalSize (firstSize cfg commitSize size w) size ∨
    HasRoom (firstSize cfg commitSize size w) (firstSize cfg commitSize size w + sectionSize) size

theorem not_serviceable (h : ¬ Serviceable cfg commitSize size) :
    sectionSize / 2 < size ∧ step cfg commitSize size = sectionSize := by
  unfold Serviceable at h
  simp only [not_or, ne_eq, not_not, Nat.not_le] at h
  exact ⟨h.1, h.2.1⟩

theorem steady_first (hlarge : sectionSize / 2 < size) (hevac : w.underEvac = []) :
    Steady cfg (extended cfg commitSize size w) := by
  have hreq := required_le cfg commitSize size w
  have hsec : growthBoundary ≤ sectionSize / 2 := by decide
  exact steady_extended hevac (by omega)

theorem isSome_searchElement_extended (hsize : size ≤ sectionSize) :
    (searchElement (extended cfg commitSize size w).sizeMap
      ⟨w.logicalSize, (extended cfg commitSize size w).logicalSize - w.logicalSize⟩ size).isSome ↔
    HasRoom w.logicalSize (extended cfg commitSize size w).logicalSize size := by
  have hreq := required_le cfg commitSize size w
  rw [isSome_searchElement hsize (by dsimp only; omega)]
  dsimp only
  rw [Nat.add_sub_cancel' (by omega)]

/-- What happens with nothing kept back: the first extension has room, or the second, or none ever has. -/
theorem reserveLoop_iff (hservice : ¬ Serviceable cfg commitSize size) (hsize : size ≤ sectionSize)
    (hevac : w.underEvac = []) (hmax : minimalNewSize commitSize size w ≤ maximumSize)
    (hmax' : minimalNewSize commitSize size (extended cfg commitSize size w) ≤ maximumSize) :
    (∃ fuel r, reserveLoop cfg commitSize size fuel w = some r) ↔
      HasRoom w.logicalSize (firstSize cfg commitSize size w) size ∨
      HasRoom (firstSize cfg commitSize size w) (firstSize cfg commitSize size w + sectionSize) size := by
  obtain ⟨hlarge, hstep⟩ := not_serviceable hservice
  have hsteady : Steady cfg (extended cfg commitSize size w) := steady_first hlarge hevac
  have hfirst : (extended cfg commitSize size w).logicalSize = firstSize cfg commitSize size w := rfl
  have hroom : (searchElement (extended cfg commitSize size w).sizeMap
      ⟨w.logicalSize, firstSize cfg commitSize size w - w.logicalSize⟩ size).isSome ↔
      HasRoom w.logicalSize (firstSize cfg commitSize size w) size := isSome_searchElement_extended hsize
  constructor
  · rintro ⟨fuel, r, hr⟩
    by_contra hnone
    obtain ⟨hno, hno'⟩ := not_or.mp hnone
    cases fuel with
    | zero => cases hr
    | succ fuel =>
      rw [reserveLoop, if_neg (not_not.mpr hevac), extendFreeSpace_eq hmax, hfirst] at hr
      dsimp only at hr
      rw [Option.not_isSome_iff_eq_none.mp (mt hroom.mp hno), reserveLoop_stuck hstep hsize fuel hsteady hno'] at hr
      cases hr
  · have hone : ∀ {u : Writer}, u.underEvac = [] → minimalNewSize commitSize size u ≤ maximumSize →
        HasRoom u.logicalSize (extended cfg commitSize size u).logicalSize size →
        ∃ r, reserveLoop cfg commitSize size 1 u = some r := by
      intro u hu humax huroom
      obtain ⟨⟨m, b⟩, hfound⟩ := Option.isSome_iff_exists.mp ((isSome_searchElement_extended hsize).mpr huroom)
      rw [reserveLoop, if_neg (not_not.mpr hu), extendFreeSpace_eq humax]
      dsimp only
      rw [hfound]
      exact ⟨_, rfl⟩
    rintro (h | h)
    · exact ⟨1, hone hevac hmax h⟩
    · have hnext := hsteady.logicalSize_extended commitSize size
      rw [hstep, hfirst] at hnext
      obtain ⟨r, hr⟩ := hone hsteady.underEvac hmax' (by rw [hnext, hfirst]; exact h)
      rcases reserveLoop_round cfg hevac hmax hsize 1 with ⟨r', hr'⟩ | ⟨hagain, -⟩
      · exact ⟨2, r', hr'⟩
      · exact ⟨2, r, hagain.trans hr⟩

/-! ## The requests that are served -/

/-- What a reservation gives: a block with room for the request inside one section, of space that was free or beyond the
end of the file; and all that was free still is. -/
structure Served (size : Nat) (w w' : Writer) (b : Block) : Prop where
  mem : b ∈ w'.sizeMap
  size_le : size ≤ b.size
  section_le : b.ref + size ≤ upperSectionBoundary b.ref
  was_free : ∀ x, b.Has x → 0 < cover w.usable x ∨ w.logicalSize ≤ x ∧ x < w'.logicalSize
  still_free : ∀ x, 0 < cover w.usable x → 0 < cover w'.usable x

theorem Reserved.served {w' : Writer} {b : Block} (h : Reserved cfg size w w' b) : Served size w w' b := by
  refine ⟨h.mem, h.size_le, h.section_le, fun x hx => ?_, fun x hx => ?_⟩
  · have hcover := h.grows.cover_eq x
    have hb : 0 < cover w'.usable x := cover_pos_iff.mpr ⟨b, List.mem_append_left _ h.mem, hx⟩
    by_cases hold : 0 < cover w.usable x
    · exact Or.inl hold
    · have hind : 0 < (Block.mk w.logicalSize (w'.logicalSize - w.logicalSize)).ind x := by
        rw [cover_nil] at hcover
        omega
      have hhas := ind_pos_iff.mp hind
      simp only [Block.Has] at hhas
      exact Or.inr (by omega)
  · have hcover := h.grows.cover_eq x
    rw [cover_nil] at hcover
    omega

theorem usable_giveUpEvacuation (w : Writer) (b : Block) : b ∈ (giveUpEvacuation w).sizeMap ↔ b ∈ w.usable := by
  exact (foldl_emplace_perm w.sizeMap w.underEvac).mem_iff

theorem Moderate.minimalNewSize_le (hw : Moderate commitSize w) (cfg : Config) (hsize : size ≤ sectionSize) :
    minimalNewSize commitSize size w ≤ maximumSize ∧
      minimalNewSize commitSize size (extended cfg commitSize size w) ≤ maximumSize := by
  have hmin := FreeSpace.minimalNewSize_le commitSize size w
  have hmin' := FreeSpace.minimalNewSize_le commitSize size (extended cfg commitSize size w)
  have hend := logicalSize_extended_le cfg commitSize size w
  have hfile' : (extended cfg commitSize size w).fileSize =
    max w.fileSize (extended cfg commitSize size w).logicalSize := rfl
  have hgrowth := growth_le hw.commitSize hsize
  obtain ⟨hlogical, hfile, -⟩ := hw
  unfold sectionSize at hend
  unfold maximumSize
  omega

theorem reserveFreeSpace_iff (hpos : 0 < size) (hsize : size ≤ sectionSize) (hw : Moderate commitSize w) :
    (∃ fuel r, reserveFreeSpace cfg commitSize fuel size w = some r) ↔ Reservable cfg commitSize size w := by
  by_cases hservice : Serviceable cfg commitSize size
  · exact ⟨fun _ => Or.inr (Or.inl hservice), fun _ => reserveFreeSpace_isSome hservice hpos hsize hw⟩
  unfold reserveFreeSpace Reservable
  cases hpart : searchPart w.sizeMap size with
  | some found =>
    obtain ⟨b, hb, hsuits⟩ := (isSome_searchPart hsize).mp (Option.isSome_iff_exists.mpr ⟨_, hpart⟩)
    exact ⟨fun _ => Or.inl ⟨b, List.mem_append_left _ hb, hsuits⟩, fun _ => ⟨0, _, rfl⟩⟩
  | none =>
    dsimp only
    by_cases hevac : w.underEvac = []
    · have hno : ¬ ∃ b ∈ w.usable, Suits size b := by
        rintro ⟨b, hb, hsuits⟩
        have hmem : b ∈ w.sizeMap := by simpa [Writer.usable, hevac] using hb
        have hsome := (isSome_searchPart hsize).mpr ⟨b, hmem, hsuits⟩
        rw [hpart] at hsome
        cases hsome
      obtain ⟨hmax, hmax'⟩ := hw.minimalNewSize_le cfg hsize
      rw [reserveLoop_iff hservice hsize hevac hmax hmax']
      exact ⟨fun h => Or.inr (Or.inr h), fun h => (h.resolve_left hno).resolve_left hservice⟩
    · -- what was kept back is released first
      have hgiven : Moderate commitSize (giveUpEvacuation w) := ⟨hw.logicalSize, hw.fileSize, hw.commitSize⟩
      obtain ⟨hmax, hmax'⟩ := hgiven.minimalNewSize_le cfg hsize
      have hgive := reserveLoop_iff hservice hsize rfl hmax hmax'
      have hsuits : (searchPart (giveUpEvacuation w).sizeMap size).isSome ↔ ∃ b ∈ w.usable, Suits size b := by
        rw [isSome_searchPart hsize]
        exact exists_congr fun b => and_congr_left fun _ => usable_giveUpEvacuation w b
      constructor
      · rintro ⟨fuel, r, hr⟩
        cases fuel with
        | zero => cases hr
        | succ fuel =>
          rw [reserveLoop, if_pos hevac] at hr
          dsimp only at hr
          split at hr
          · rename_i hfound
            exact Or.inl (hsuits.mp (Option.isSome_iff_exists.mpr ⟨_, hfound⟩))
          · exact Or.inr (Or.inr (hgive.mp ⟨fuel, r, hr⟩))
      · intro h
        cases hfound : searchPart (giveUpEvacuation w).sizeMap size with
        | some found =>
          refine ⟨1, ?_⟩
          rw [reserveLoop, if_pos hevac]
          dsimp only
          rw [hfound]
          exact ⟨_, rfl⟩
        | none =>
          rw [← hsuits, hfound] at h
          obtain ⟨fuel, r, hr⟩ := hgive.mpr ((h.resolve_left Bool.false_ne_true).resolve_left hservice)
          refine ⟨fuel + 1, r, ?_⟩
          rw [reserveLoop, if_pos hevac]
          dsimp only
          rw [hfound]
          exact hr

/-- **Which requests `reserve_free_space` serves** in a given state of the writer, while sizes are moderate. -/
theorem reserves_iff (cfg : Config) {commitSize size : Nat} {w : Writer} (hpos : 0 < size) (hsize : size ≤ sectionSize)
    (hok : w.Ok) (hw : Moderate commitSize w) :
    (∃ fuel w' b, reserveFreeSpace cfg commitSize fuel size w = some (w', b) ∧ Served size w w' b) ↔
    Reservable cfg commitSize size w := by
  rw [← reserveFreeSpace_iff hpos hsize hw]
  constructor
  · rintro ⟨fuel, w', b, hsome, -⟩
    exact ⟨fuel, _, hsome⟩
  · rintro ⟨fuel, ⟨w', b⟩, hsome⟩
    exact ⟨fuel, w', b, hsome, (reserveFreeSpace_spec hpos hok hsome).served⟩

/-- A file that ends in the middle of a section, with nothing free. -/
def halfway : Writer := ⟨[], [], [], sectionSize + sectionSize / 2, sectionSize + sectionSize / 2, 0, 0⟩

theorem halfway_ok : halfway.Ok := ⟨List.forall_mem_nil _, by decide, rfl⟩

/-- A request of 48 MiB has no place in the first extension, which ends 16 MiB into the next section. -/
theorem large_request_is_served : (0 < 3 * 2 ^ 24 ∧ 3 * 2 ^ 24 ≤ sectionSize ∧ halfway.Ok ∧ Moderate 0 halfway) ∧
    ∃ fuel w' b, reserveFreeSpace Small.cfg 0 fuel (3 * 2 ^ 24) halfway = some (w', b) ∧
      Served (3 * 2 ^ 24) halfway w' b := by
  have hsize : 3 * 2 ^ 24 ≤ sectionSize := by decide
  have hmoderate : Moderate 0 halfway := ⟨by decide, by decide, by decide⟩
  refine ⟨⟨by decide, hsize, halfway_ok, hmoderate⟩,
    (reserves_iff Small.cfg (by decide) hsize halfway_ok hmoderate).mpr ?_⟩
  exact Or.inr (Or.inl (by decide))

/-- **A request of 64 MiB less 8 bytes is never served** by a file that ends in the middle of a section. -/
theorem section_request_never_served : (2 ^ 26 - 8 ≤ sectionSize ∧ halfway.Ok ∧ Moderate 0 halfway) ∧
    ∀ fuel, reserveFreeSpace Small.cfg 0 fuel (2 ^ 26 - 8) halfway = none := by
  refine ⟨⟨by decide, halfway_ok, by decide, by decide, by decide⟩, fun fuel => ?_⟩
  have hsteady : Steady Small.cfg halfway := ⟨rfl, by decide, by decide, rfl⟩
  exact reserveLoop_stuck (by decide) (by decide) fuel hsteady (by unfold HasRoom; decide)

end Llbt.FreeSpace
