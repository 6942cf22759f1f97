import Llbt.FreeSpace.History

/-!
# The assertions of `backdate`

`backdate` with its assertions: a failed one, like a loop that does not end, is `none`.  With `LLBT_DEBUG` it also
compares its decisions with the blocks that `map_reachable` has found in use.

* `backdateChecked_eq` — without `LLBT_DEBUG` no assertion fails, and every round moves to an older version;
* `backdate_passes` — what is left are entries of the same blocks with stamps that are justified;
* `debug_check_fails` — the comparison with the blocks in use fails for space that a version neither uses nor
  lists as free.
-/

set_option autoImplicit false

namespace Llbt.FreeSpace

open Blocks

/-! ## The function with its assertions -/

/-- `map_reachable`: the blocks in use, by position. -/
def reachableBlocks (v : Version) : List Block := (v.nodes ++ v.arrays).insertionSort fun a b => a.ref ≤ b.ref

/-- `is_referenced` for one version.  If no block begins at the entry or behind it, none is looked at. -/
def isReferencedIn (e : Entry) (v : Version) : Bool :=
  let infoBegin := (reachableBlocks v).takeWhile fun b => b.ref < e.ref
  match (reachableBlocks v).dropWhile fun b => b.ref < e.ref with
  | [] => false
  | it :: infoEnd =>
    ((infoBegin.getLast?.toList ++ it :: infoEnd).takeWhile fun b => b.ref < e.ref + e.size).any fun b =>
      decide (e.ref < b.ref + b.size)

def isReferenced (live : List Version) (e : Entry) : Bool := live.any (isReferencedIn e)

def getEarlierChecked (live : List Version) (version : Nat) : Option Version :=
  match live.dropWhile fun v => v.version < version with
  | [] => none
  | _ :: _ =>
    match getEarlier live version with
    | none => none
    | some earlier => if earlier.version < version then some earlier else none

/-- `find_cover_for`, which asserts that the stamp it returns is not younger than that of the entry. -/
def findCoverChecked (e : Entry) (freeList : Version) : Option (Option Nat) :=
  match findCover e freeList with
  | none => some none
  | some found => if found ≤ e.releasedAt then some (some found) else none

/-- The loop of `backdate_single_entry`. -/
def backdateLoopChecked (debug : Bool) (live : List Version) (oldest : Nat) (referenced : Bool) :
    Nat → Entry → Option Entry
  | 0, _ => none
  | fuel + 1, e =>
    if e.releasedAt = 0 then some e
    else if e.releasedAt ≤ oldest then if debug && referenced then none else some e
    else
      match getEarlierChecked live e.releasedAt with
      | none => none
      | some earlier =>
        match findCoverChecked e earlier with
        | none => none
        | some (some covering) =>
          if debug && referenced then none
          else backdateLoopChecked debug live oldest referenced fuel { e with releasedAt := covering }
        | some none => if debug && !referenced then none else some e

def backdateSingleEntryChecked (debug : Bool) (live : List Version) (oldest current : Nat) (e : Entry) :
    Option Entry :=
  if e.releasedAt = current then if debug && isReferenced live e then none else some e
  else backdateLoopChecked debug live oldest (isReferenced live e) (live.length + 1) e

def backdateChecked (debug : Bool) (live : List Version) (oldest current : Nat) (locked : List Entry) :
    Option (List Entry) :=
  locked.mapM (backdateSingleEntryChecked debug live oldest current)

/-! ## No assertion fails -/

section Checks

variable {live : List Version} {newest : Version}

theorem getEarlierChecked_eq (hs : Snapshots live) (hlast : live.getLast? = some newest) {version : Nat}
    (holdest : oldestReachable live < version) (hle : version ≤ newest.version) :
    ∃ earlier ∈ live, getEarlier live version = some earlier ∧ getEarlierChecked live version = some earlier ∧
      earlier.version < version := by
  have hend : live.dropWhile (fun v => v.version < version) ≠ [] := by
    intro hnil
    have hall := List.dropWhile_eq_nil_iff.mp hnil newest (List.mem_of_getLast? hlast)
    rw [decide_eq_true_eq] at hall
    omega
  have hbegin : live.takeWhile (fun v => v.version < version) ≠ [] := by
    cases live with
    | nil => cases hlast
    | cons v vs =>
      have hhead : v.version < version := holdest
      rw [List.takeWhile_cons_of_pos (by simpa using hhead)]
      exact List.cons_ne_nil _ _
  obtain ⟨earlier, hearlier⟩ : ∃ earlier, getEarlier live version = some earlier :=
    ⟨_, List.getLast?_eq_some_getLast hbegin⟩
  obtain ⟨hmem, hlt, -⟩ := getEarlier_spec hs.ascending hearlier
  refine ⟨earlier, hmem, hearlier, ?_, hlt⟩
  unfold getEarlierChecked
  cases hdrop : live.dropWhile fun v => v.version < version with
  | nil => exact absurd hdrop hend
  | cons d ds =>
    dsimp only
    rw [hearlier]
    exact if_pos hlt

/-- The versions below a stamp.  Each round of the loop leaves fewer of them. -/
def below (live : List Version) (stamp : Nat) : Nat := (live.filter fun v => v.version < stamp).length

theorem below_lt {earlier : Version} (hmem : earlier ∈ live) {covering stamp : Nat}
    (hcover : covering ≤ earlier.version) (hlt : earlier.version < stamp) :
    below live covering < below live stamp := by
  have hsub : (live.filter fun v => v.version < covering).Sublist (live.filter fun v => v.version < stamp) := by
    refine List.monotone_filter_right live fun v hv => ?_
    rw [decide_eq_true_eq] at hv ⊢
    omega
  refine Nat.lt_of_le_of_ne hsub.length_le fun hlen => ?_
  have heq := hsub.eq_of_length hlen
  have hin : earlier ∈ live.filter fun v => v.version < stamp :=
    List.mem_filter.mpr ⟨hmem, by simpa using hlt⟩
  rw [← heq, List.mem_filter, decide_eq_true_eq] at hin
  omega

/-- **The loop ends, and its assertions hold.**  Fuel beyond the number of older versions is not used. -/
theorem backdateLoopChecked_eq (hs : Snapshots live) (hlast : live.getLast? = some newest) (referenced : Bool) :
    ∀ (fuel : Nat) (e : Entry), e.releasedAt ≤ newest.version → below live e.releasedAt ≤ fuel →
      backdateLoopChecked false live (oldestReachable live) referenced (fuel + 1) e =
        some (backdateLoop live (oldestReachable live) fuel e)
  | fuel, e, hle, hfuel => by
    unfold backdateLoopChecked
    by_cases hzero : e.releasedAt = 0
    · rw [if_pos hzero]
      cases fuel with
      | zero => rfl
      | succ fuel => rw [backdateLoop, if_pos hzero]
    rw [if_neg hzero]
    by_cases hold : e.releasedAt ≤ oldestReachable live
    · rw [if_pos hold]
      cases fuel with
      | zero => rfl
      | succ fuel => rw [backdateLoop, if_neg hzero, if_pos hold]; rfl
    rw [if_neg hold]
    obtain ⟨earlier, hmem, hearlier, hchecked, hlt⟩ := getEarlierChecked_eq hs hlast (Nat.lt_of_not_le hold) hle
    rw [hchecked]
    dsimp only
    -- the version looked at is one of those that the fuel counts
    cases fuel with
    | zero =>
      have hin : earlier ∈ live.filter fun v => v.version < e.releasedAt :=
        List.mem_filter.mpr ⟨hmem, by simpa using hlt⟩
      rw [List.eq_nil_of_length_eq_zero (Nat.le_zero.mp hfuel)] at hin
      cases hin
    | succ fuel =>
      rw [backdateLoop, if_neg hzero, if_neg hold, hearlier]
      dsimp only
      unfold findCoverChecked
      cases hcover : findCover e earlier with
      | none => rfl
      | some covering =>
        have hcov := findCover_le (hs.stamp_le earlier hmem) hcover
        have hfewer := below_lt hmem hcov hlt
        dsimp only
        rw [if_pos (by omega)]
        exact backdateLoopChecked_eq hs hlast referenced fuel { e with releasedAt := covering }
          (by dsimp only; omega) (by dsimp only; omega)

theorem backdateChecked_eq (hs : Snapshots live) (hlast : live.getLast? = some newest) (current : Nat) :
    ∀ {locked : List Entry}, (∀ e ∈ locked, e.releasedAt ≤ newest.version) →
      backdateChecked false live (oldestReachable live) current locked =
        some (backdate live (oldestReachable live) current locked)
  | [], _ => rfl
  | e :: es, h => by
    obtain ⟨he, hes⟩ := List.forall_mem_cons.mp h
    have hone : backdateSingleEntryChecked false live (oldestReachable live) current e =
        some (backdateSingleEntry live (oldestReachable live) current e) := by
      unfold backdateSingleEntryChecked backdateSingleEntry
      by_cases hcur : e.releasedAt = current
      · rw [if_pos hcur, if_pos hcur]
        rfl
      · rw [if_neg hcur, if_neg hcur]
        exact backdateLoopChecked_eq hs hlast _ _ e he (List.length_filter_le _ _)
    have hrest := backdateChecked_eq hs hlast current hes
    unfold backdateChecked at hrest ⊢
    rw [List.mapM_cons, hone, hrest]
    rfl

end Checks

/-! ## What backdating guarantees -/

/-- What `backdate` relies on: free lists in order, with stamps that agree with what the live versions use. -/
structure Sound (live : List Version) : Prop where
  snapshots : Snapshots live
  ordered : ∀ v ∈ live, Ordered v.free

/-- Not in use in any live version from the stamp on. -/
def Unlocked (live : List Version) (e : Entry) : Prop :=
  ∀ w ∈ live, e.releasedAt ≤ w.version → ∀ x, e.block.Has x → cover w.used x = 0

/-- An entry of the same block, with a stamp that is not higher and from which on no live version uses the block. -/
structure Justified (live : List Version) (e e' : Entry) : Prop where
  block_eq : e'.block = e.block
  stamp_le : e'.releasedAt ≤ e.releasedAt
  unlocked : Unlocked live e'

/-- **`backdate` passes its assertions.**  It changes stamps only, raises none, and every entry is left with a stamp
from which on no live version uses it. -/
theorem backdate_passes {live : List Version} {newest : Version} {current : Nat} {locked : List Entry}
    (hs : Sound live) (hlast : live.getLast? = some newest)
    (hlocked : ∀ e ∈ locked, e ∈ newest.free ∧ oldestReachable live < e.releasedAt)
    (hunused : ∀ e ∈ locked, Unlocked live e) :
    ∃ result, backdateChecked false live (oldestReachable live) current locked = some result ∧
      List.Forall₂ (Justified live) locked result := by
  have hmem := List.mem_of_getLast? hlast
  refine ⟨_, backdateChecked_eq hs.snapshots hlast current fun e he =>
    hs.snapshots.stamp_le newest hmem e (hlocked e he).1, ?_⟩
  rw [backdate, List.forall₂_map_right_iff, List.forall₂_same]
  intro e he
  have hdated := backdateSingleEntry_spec hs.snapshots (oldestReachable live) current newest.version e
  have hle := le_newest hs.snapshots.ascending hlast
  refine ⟨hdated.block_eq, hdated.stamp_le, fun w hw hlo => ?_⟩
  exact hdated.vacant (fun w hw hlo _ => hunused e he w hw hlo) w hw hlo (hle w hw)

/-- A version with one node and the given free list. -/
def oneNode (version : Nat) (free : List Entry) : Version := ⟨version, 64, [⟨24, 8⟩], [], [], free, .none⟩

theorem oneNode_sound {v w : Nat} {free free' : List Entry} (hlt : v < w) (hord : Ordered free) (hord' : Ordered free')
    (hle : ∀ e ∈ free, e.releasedAt ≤ v) (hle' : ∀ e ∈ free', e.releasedAt ≤ w)
    (hfree : ∀ e ∈ free, 32 ≤ e.ref) (hfree' : ∀ e ∈ free', 32 ≤ e.ref) :
    Sound [oneNode v free, oneNode w free'] := by
  have hused : ∀ u ∈ [oneNode v free, oneNode w free'], ∀ x, 32 ≤ x → cover u.used x = 0 := by
    intro u hu x hx
    have hsame : u.used = [fileHeader, ⟨24, 8⟩] := by
      rcases List.mem_pair.mp hu with rfl | rfl <;> rfl
    rw [hsame, cover_eq_zero_iff]
    simp only [List.forall_mem_cons, fileHeader, Block.Has, List.not_mem_nil, false_imp_iff, implies_true, and_true]
    omega
  have hlists : ∀ u ∈ [oneNode v free, oneNode w free'], ∀ e ∈ u.free, e.releasedAt ≤ u.version ∧ 32 ≤ e.ref := by
    intro u hu e he
    rcases List.mem_pair.mp hu with rfl | rfl
    · exact ⟨hle e he, hfree e he⟩
    · exact ⟨hle' e he, hfree' e he⟩
  refine ⟨⟨?_, fun u hu e he => (hlists u hu e he).1, fun u hu e he t ht _ _ x hx => ?_, fun u hu t ht _ x hx => ?_⟩,
    fun u hu => ?_⟩
  · simpa [oneNode] using hlt
  · have href := (hlists u hu e he).2
    simp only [Block.Has, Entry.block] at hx
    exact hused t ht x (by omega)
  · have hsize : u.logicalSize = 64 := by rcases List.mem_pair.mp hu with rfl | rfl <;> rfl
    exact hused t ht x (by omega)
  · rcases List.mem_pair.mp hu with rfl | rfl
    · exact hord
    · exact hord'

/-- A block that was free before it was used and released in the meantime gets its old stamp back. -/
theorem stamp_is_lowered :
    backdateChecked false [oneNode 1 [⟨32, 32, 0⟩], oneNode 3 [⟨32, 32, 2⟩]] 1 4 [⟨32, 32, 2⟩] = some [⟨32, 32, 0⟩] ∧
      ∃ result, backdateChecked false [oneNode 1 [⟨32, 32, 0⟩], oneNode 3 [⟨32, 32, 2⟩]] 1 4 [⟨32, 32, 2⟩] =
          some result ∧
        List.Forall₂ (Justified [oneNode 1 [⟨32, 32, 0⟩], oneNode 3 [⟨32, 32, 2⟩]]) [⟨32, 32, 2⟩] result := by
  have hsound : Sound [oneNode 1 [⟨32, 32, 0⟩], oneNode 3 [⟨32, 32, 2⟩]] := by
    apply oneNode_sound
    · decide
    · exact List.pairwise_singleton _ _
    · exact List.pairwise_singleton _ _
    all_goals simp
  have hlast : [oneNode 1 [⟨32, 32, 0⟩], oneNode 3 [⟨32, 32, 2⟩]].getLast? = some (oneNode 3 [⟨32, 32, 2⟩]) := rfl
  refine ⟨by decide, backdate_passes hsound hlast ?_ ?_⟩
  · simp [oneNode, oldestReachable]
  · intro e he w hw hlo x hx
    rw [List.mem_singleton.mp he] at hlo hx
    rcases List.mem_pair.mp hw with rfl | rfl
    · simp [oneNode] at hlo
    · exact hsound.snapshots.vacant _ hw ⟨32, 32, 2⟩ (by simp [oneNode]) _ hw hlo (Nat.le_refl _) x hx

/-- **The check of `LLBT_DEBUG` can fail.**  The older version neither uses the block nor lists it as free. -/
theorem debug_check_fails :
    Sound [oneNode 1 [], oneNode 3 [⟨32, 32, 2⟩]] ∧ Unlocked [oneNode 1 [], oneNode 3 [⟨32, 32, 2⟩]] ⟨32, 32, 2⟩ ∧
      (⟨32, 32, 2⟩ : Entry) ∈ (oneNode 3 [⟨32, 32, 2⟩]).free ∧
      oldestReachable [oneNode 1 [], oneNode 3 [⟨32, 32, 2⟩]] = 1 ∧
      backdateChecked true [oneNode 1 [], oneNode 3 [⟨32, 32, 2⟩]] 1 4 [⟨32, 32, 2⟩] = none := by
  have hsound : Sound [oneNode 1 [], oneNode 3 [⟨32, 32, 2⟩]] := by
    apply oneNode_sound
    · decide
    · exact List.Pairwise.nil
    · exact List.pairwise_singleton _ _
    all_goals simp
  refine ⟨hsound, fun w hw hlo x hx => ?_, by simp [oneNode], rfl, by decide⟩
  rcases List.mem_pair.mp hw with rfl | rfl
  · simp [oneNode] at hlo
  · exact hsound.snapshots.vacant _ hw ⟨32, 32, 2⟩ (by simp [oneNode]) _ hw hlo (Nat.le_refl _) x hx

end Llbt.FreeSpace
