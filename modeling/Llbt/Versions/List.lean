import Mathlib

/-!
# The version list

`VersionList` lives in the lock file and is shared by all processes: one entry for each version that
can still be read, with the number of processes that hold a lock of each type.  Every process keeps
a cache of its own locks, so that only the first lock of a type on an entry and the last release
touch the shared counts.

* `VersionList.tryAllocateEntry`, `VersionList.addVersion`, `VersionList.purgeVersions` — the
  writer's operations;
* `tryGrabLocal`, `VersionList.grabShared`, `recordLocal` — the three parts of
  `VersionManager::grab_read_lock`;
* `releaseLocal`, `VersionList.releaseShared` — the two parts of
  `VersionManager::release_read_lock`.

Each part runs under its own mutex, so other processes can act between two of them.
-/

set_option autoImplicit false

namespace Llbt.Versions

/-! ## Entries -/

/-- `ReadLockInfo::Type`. -/
inductive LockType where
  | frozen
  | live
  | full
  deriving DecidableEq, Repr

structure ReadCount where
  version : Nat := 0
  filesize : Nat := 0
  currentTop : Nat := 0
  countLive : Nat := 0
  countFrozen : Nat := 0
  countFull : Nat := 0
  deriving DecidableEq, Repr

def maxU64 : Nat := 2 ^ 64 - 1

namespace ReadCount

def isActive (r : ReadCount) : Bool := r.version != 0

def deactivate (r : ReadCount) : ReadCount :=
  { r with version := 0, countLive := 0, countFrozen := 0, countFull := 0 }

def free (r : ReadCount) : ReadCount :=
  { r with currentTop := maxU64, filesize := maxU64 }.deactivate

/-- `field_for_type`, read. -/
def count (r : ReadCount) : LockType → Nat
  | .frozen => r.countFrozen
  | .live => r.countLive
  | .full => r.countFull

/-- `field_for_type`, written. -/
def setCount (r : ReadCount) (t : LockType) (n : Nat) : ReadCount :=
  match t with
  | .frozen => { r with countFrozen := n }
  | .live => { r with countLive := n }
  | .full => { r with countFull := n }

/-- Two entries are about the same version. -/
def SameVersion (r r' : ReadCount) : Prop :=
  r.version = r'.version ∧ r.currentTop = r'.currentTop ∧ r.filesize = r'.filesize

@[simp] theorem count_setCount (r : ReadCount) (t t' : LockType) (n : Nat) :
    (r.setCount t n).count t' = if t' = t then n else r.count t' := by
  cases t <;> cases t' <;> rfl

@[simp] theorem version_setCount (r : ReadCount) (t : LockType) (n : Nat) :
    (r.setCount t n).version = r.version := by
  cases t <;> rfl

@[simp] theorem currentTop_setCount (r : ReadCount) (t : LockType) (n : Nat) :
    (r.setCount t n).currentTop = r.currentTop := by
  cases t <;> rfl

@[simp] theorem filesize_setCount (r : ReadCount) (t : LockType) (n : Nat) :
    (r.setCount t n).filesize = r.filesize := by
  cases t <;> rfl

@[simp] theorem count_deactivate (r : ReadCount) (t : LockType) : r.deactivate.count t = 0 := by
  cases t <;> rfl

@[simp] theorem count_free (r : ReadCount) (t : LockType) : r.free.count t = 0 := by
  cases t <;> rfl

theorem count_default (t : LockType) : ({} : ReadCount).count t = 0 := by
  cases t <;> rfl

theorem isActive_iff {r : ReadCount} : r.isActive = true ↔ r.version ≠ 0 := by
  simp [isActive]

end ReadCount

/-- `--count`.  The counts are `uint32_t`, so counting down from zero wraps; nobody counts up to
`2 ^ 32`. -/
def countDown (n : Nat) : Nat := if n = 0 then 2 ^ 32 - 1 else n - 1

theorem countDown_of_pos {n : Nat} (h : 0 < n) : countDown n = n - 1 := if_neg (by omega)

/-! ## The list -/

/-- `data` holds `entries` entries. -/
structure VersionList where
  data : List ReadCount
  allocating : Nat
  newest : Nat
  deriving DecidableEq, Repr

structure VersionInfo where
  topRef : Nat
  logicalSize : Nat
  deriving DecidableEq, Repr

/-- What `purge_versions` reports to the writer. -/
structure Purged where
  oldestLive : Nat
  topRefs : List (Nat × VersionInfo)
  anyNewUnreachables : Bool
  deriving DecidableEq, Repr

structure ReadLockInfo where
  version : Nat
  readerIdx : Nat
  topRef : Nat
  fileSize : Nat
  type : LockType
  deriving DecidableEq, Repr

structure VersionID where
  version : Nat
  index : Nat
  deriving DecidableEq, Repr

/-- `BadVersion`, with the version that was asked for (none stands for the newest). -/
structure BadVersion where
  version : Option Nat
  deriving DecidableEq, Repr

/-- The smallest of some version numbers, `max` if there are none. -/
def oldest (versions : List Nat) : Nat := versions.foldl min maxU64

theorem foldl_min_le {m : Nat} : ∀ (vs : List Nat), vs.foldl min m ≤ m
  | [] => Nat.le_refl m
  | v :: vs => Nat.le_trans (foldl_min_le vs) (Nat.min_le_left m v)

theorem foldl_min_le_of_mem {v : Nat} {vs : List Nat} (h : v ∈ vs) (m : Nat) :
    vs.foldl min m ≤ v := by
  induction vs generalizing m with
  | nil => cases h
  | cons w vs ih =>
    rcases List.mem_cons.mp h with rfl | h
    · exact Nat.le_trans (foldl_min_le vs) (Nat.min_le_right _ _)
    · exact ih h _

theorem oldest_le {v : Nat} {vs : List Nat} (h : v ∈ vs) : oldest vs ≤ v :=
  foldl_min_le_of_mem h maxU64

namespace VersionList

/-- An entry outside the list reads as a free one. -/
def get (l : VersionList) (i : Nat) : ReadCount := l.data.getD i {}

def set (l : VersionList) (i : Nat) (r : ReadCount) : VersionList :=
  { l with data := l.data.set i r }

def reserve (l : VersionList) (size : Nat) : VersionList :=
  { l with data := l.data ++ List.replicate (size - l.data.length) {} }

/-- The end of `try_allocate_entry`: entry `i` is filled and becomes the newest. -/
def fill (l : VersionList) (i top size version : Nat) : VersionList :=
  { data := l.data.set i { l.get i with version := version, currentTop := top, filesize := size }
    allocating := i
    newest := i }

def tryAllocateEntry (l : VersionList) (top size version : Nat) : Option VersionList :=
  if l.allocating = l.newest then
    -- the lowest free entry
    let k := l.data.findIdx (fun r => !r.isActive)
    if k = l.data.length then none else some (l.fill k top size version)
  else some (l.fill l.allocating top size version)

def addVersion (l : VersionList) (top size version : Nat) : VersionList :=
  match l.tryAllocateEntry top size version with
  | some l' => l'
  | none =>
    let l := l.reserve (l.data.length + 32)
    (l.tryAllocateEntry top size version).getD l

def initVersioning (l : VersionList) (top size version : Nat) : VersionList :=
  fill { l with data := l.data.map ReadCount.deactivate } 0 top size version

/-- After a fully locked version all versions are considered live. -/
def oldestFull (data : List ReadCount) : Nat :=
  oldest ((data.filter fun r => r.isActive && r.countFull != 0).map (·.version))

/-- The entry can still be reached: it is locked, or a version before it is fully locked. -/
def reachable (data : List ReadCount) (r : ReadCount) : Bool :=
  r.countFrozen != 0 || r.countLive != 0 || decide (oldestFull data ≤ r.version)

/-- The entries before a purge, an interrupted allocation undone. -/
def repaired (l : VersionList) : List ReadCount :=
  if l.allocating ≠ l.newest then l.data.modify l.allocating ReadCount.deactivate else l.data

def topRefs (data : List ReadCount) : List (Nat × VersionInfo) :=
  (data.filter fun r => r.isActive && reachable data r).map
    fun r => (r.version, ⟨r.currentTop, r.filesize⟩)

def purgeEntry (data : List ReadCount) (r : ReadCount) : ReadCount :=
  if r.isActive && !reachable data r then r.free else r

def purgeVersions (l : VersionList) : VersionList × Purged :=
  let data := l.repaired
  let oldestV := oldest ((topRefs data).map (·.1))
  ({ l with data := data.map (purgeEntry data) },
   { oldestLive := oldest ((data.filter fun r =>
        r.isActive && (r.countLive != 0 || decide (oldestFull data ≤ r.version))).map (·.version))
     topRefs := topRefs data
     anyNewUnreachables := data.any fun r =>
        r.isActive && !reachable data r && decide (oldestV < r.version) })

/-! ### Reading the list after an operation -/

theorem get_of_le {l : VersionList} {i : Nat} (h : l.data.length ≤ i) : l.get i = {} :=
  List.getD_eq_default _ _ h

theorem lt_of_active {l : VersionList} {i : Nat} (h : (l.get i).version ≠ 0) :
    i < l.data.length := by
  refine Nat.lt_of_not_le fun hle => h ?_
  rw [get_of_le hle]

theorem get_mem {l : VersionList} {i : Nat} (h : i < l.data.length) : l.get i ∈ l.data := by
  rw [get, List.getD_eq_getElem _ _ h]
  exact List.getElem_mem h

theorem get_set (l : VersionList) {i : Nat} (r : ReadCount) (h : i < l.data.length) (j : Nat) :
    (l.set i r).get j = if j = i then r else l.get j := by
  unfold get set
  simp only [List.getD_eq_getElem?_getD, List.getElem?_set]
  by_cases hj : j = i
  · subst hj
    simp [h]
  · simp [hj, Ne.symm hj]

@[simp] theorem get_reserve (l : VersionList) (size i : Nat) : (l.reserve size).get i = l.get i := by
  unfold get reserve
  by_cases h : i < l.data.length
  · exact List.getD_append _ _ _ _ h
  · simp only [List.getD_eq_getElem?_getD]
    rw [List.getElem?_append_right (by omega), List.getElem?_eq_none (l := l.data) (by omega),
      List.getElem?_replicate]
    split <;> rfl

theorem get_fill (l : VersionList) {i : Nat} (top size version : Nat) (h : i < l.data.length)
    (j : Nat) : (l.fill i top size version).get j =
      if j = i then { l.get i with version := version, currentTop := top, filesize := size }
      else l.get j :=
  get_set l _ h j

theorem addVersion_spec {l : VersionList} (h : l.allocating = l.newest) (top size version : Nat) :
    ∃ i, (l.get i).version = 0 ∧ i < (l.addVersion top size version).data.length ∧
      (l.addVersion top size version).newest = i ∧
      (l.addVersion top size version).allocating = i ∧
      ∀ j, (l.addVersion top size version).get j =
        if j = i then { l.get i with version := version, currentTop := top, filesize := size }
        else l.get j := by
  -- an allocation that finds a free entry
  have hfound : ∀ l : VersionList, l.allocating = l.newest →
      l.data.findIdx (fun r => !r.isActive) ≠ l.data.length →
      ∃ i, (l.get i).version = 0 ∧ i < l.data.length ∧
        l.tryAllocateEntry top size version = some (l.fill i top size version) := by
    intro l hl hk
    have hlt : l.data.findIdx (fun r => !r.isActive) < l.data.length :=
      Nat.lt_of_le_of_ne List.findIdx_le_length hk
    refine ⟨_, ?_, hlt, ?_⟩
    · have hfree := List.findIdx_getElem (w := hlt)
      rw [get, List.getD_eq_getElem _ _ hlt]
      simpa [ReadCount.isActive] using hfree
    · unfold tryAllocateEntry
      rw [if_pos hl]
      exact if_neg hk
  by_cases hk : l.data.findIdx (fun r => !r.isActive) = l.data.length
  · -- the list is full and grows
    have hnone : l.tryAllocateEntry top size version = none := by
      unfold tryAllocateEntry
      rw [if_pos h]
      exact if_pos hk
    have hgrown : (l.reserve (l.data.length + 32)).data.length = l.data.length + 32 := by
      simp [reserve]
    have hfree : (l.reserve (l.data.length + 32)).data.findIdx (fun r => !r.isActive) ≠
        (l.reserve (l.data.length + 32)).data.length := by
      have hlt : (l.reserve (l.data.length + 32)).data.findIdx (fun r => !r.isActive) <
          (l.reserve (l.data.length + 32)).data.length := by
        rw [List.findIdx_lt_length]
        refine ⟨{}, ?_, rfl⟩
        simp [reserve]
      omega
    obtain ⟨i, hi, hlt, hsome⟩ := hfound (l.reserve (l.data.length + 32)) h hfree
    have heq : l.addVersion top size version =
        (l.reserve (l.data.length + 32)).fill i top size version := by
      unfold addVersion
      rw [hnone]
      dsimp only
      rw [hsome, Option.getD_some]
    rw [heq]
    refine ⟨i, by rwa [get_reserve] at hi, by simpa [fill] using hlt, rfl, rfl, fun j => ?_⟩
    rw [get_fill _ _ _ _ hlt, get_reserve, get_reserve]
  · obtain ⟨i, hi, hlt, hsome⟩ := hfound l h hk
    have heq : l.addVersion top size version = l.fill i top size version := by
      unfold addVersion
      rw [hsome]
    rw [heq]
    exact ⟨i, hi, by simpa [fill] using hlt, rfl, rfl, get_fill l _ _ _ hlt⟩

theorem oldestFull_le {data : List ReadCount} {r : ReadCount} (hr : r ∈ data)
    (hactive : r.version ≠ 0) (hfull : 0 < r.countFull) : oldestFull data ≤ r.version := by
  refine oldest_le (List.mem_map_of_mem (List.mem_filter.mpr ⟨hr, ?_⟩))
  simp only [ReadCount.isActive, Bool.and_eq_true, bne_iff_ne]
  exact ⟨hactive, by omega⟩

/-- **A locked entry is reachable**, whatever the type of the lock. -/
theorem reachable_of_count {data : List ReadCount} {r : ReadCount} (hr : r ∈ data)
    (hactive : r.version ≠ 0) {t : LockType} (ht : 0 < r.count t) : reachable data r = true := by
  unfold reachable
  simp only [Bool.or_eq_true, bne_iff_ne, decide_eq_true_eq]
  cases t with
  | frozen => exact .inl (.inl (by change 0 < r.countFrozen at ht; omega))
  | live => exact .inl (.inr (by change 0 < r.countLive at ht; omega))
  | full => exact .inr (oldestFull_le hr hactive ht)

theorem get_purgeVersions {l : VersionList} (h : l.allocating = l.newest) (i : Nat) :
    (l.purgeVersions).1.get i = purgeEntry l.data (l.get i) := by
  have hrep : l.repaired = l.data := if_neg (by simp [h])
  unfold purgeVersions
  simp only [hrep, get, List.getD_eq_getElem?_getD, List.getElem?_map]
  cases l.data[i]? with
  | none => rfl
  | some r => rfl

theorem purge_cases {l : VersionList} (h : l.allocating = l.newest) (i : Nat) :
    (l.purgeVersions).1.get i = l.get i ∨
      (l.purgeVersions).1.get i = (l.get i).free ∧ (l.get i).version ≠ 0 ∧
        ∀ t, (l.get i).count t = 0 := by
  rw [get_purgeVersions h]
  unfold purgeEntry
  split
  · rename_i hfree
    simp only [Bool.and_eq_true, Bool.not_eq_true', ReadCount.isActive_iff] at hfree
    obtain ⟨hactive, hunreachable⟩ := hfree
    refine .inr ⟨rfl, hactive, fun t => ?_⟩
    refine Nat.eq_zero_of_not_pos fun hpos => ?_
    rw [reachable_of_count (get_mem (lt_of_active hactive)) hactive hpos] at hunreachable
    cases hunreachable
  · exact .inl rfl

end VersionList

/-! ## Grabbing and releasing -/

/-- `populate_read_lock`: count up and report the entry. -/
def populateReadLock (r : ReadCount) (type : LockType) (index : Nat) : ReadLockInfo × ReadCount :=
  (⟨r.version, index, r.currentTop, r.filesize, type⟩, r.setCount type (r.count type + 1))

/-- `try_grab_local_read_lock`, on the cached entry at the index it looks at. -/
def tryGrabLocal (r : ReadCount) (type : LockType) (pick : Option VersionID) (index : Nat) :
    Option (ReadLockInfo × ReadCount) :=
  if !r.isActive then none
  else if pick.any (fun v => v.version != r.version) then none
  else if r.count type = 0 then none
  else some (populateReadLock r type index)

/-- The part of `grab_read_lock` under the mutex of the list. -/
def VersionList.grabShared (l : VersionList) (type : LockType) (pick : Option VersionID) :
    Except BadVersion (ReadLockInfo × VersionList) :=
  let index := (pick.map (·.index)).getD l.newest
  let r := l.get index
  if pick.any (fun v => v.version != r.version) then .error ⟨pick.map (·.version)⟩
  else if index ≠ l.newest ∧ type = .frozen ∧ r.countFrozen = 0 ∧ r.countLive = 0 then
    .error ⟨pick.map (·.version)⟩
  else if index ≠ l.newest ∧ type ≠ .frozen ∧ r.countLive = 0 then .error ⟨pick.map (·.version)⟩
  else
    let (lock, r') := populateReadLock r type index
    .ok (lock, l.set index r')

/-- The end of `grab_read_lock`, on the cached entry of the lock. -/
def recordLocal (r : ReadCount) (lock : ReadLockInfo) : ReadCount :=
  let r :=
    if r.isActive then r
    else { r with version := lock.version, filesize := lock.fileSize, currentTop := lock.topRef,
                  countFull := 0, countLive := 0, countFrozen := 0 }
  r.setCount lock.type 1

/-- The first part of `release_read_lock`, on the cached entry of the lock.  The flag says whether
the shared count has to follow. -/
def releaseLocal (r : ReadCount) (lock : ReadLockInfo) : ReadCount × Bool :=
  let f := countDown (r.count lock.type)
  let r := r.setCount lock.type f
  if f > 0 then (r, false)
  else if r.countLive = 0 ∧ r.countFull = 0 ∧ r.countFrozen = 0 then ({ r with version := 0 }, true)
  else (r, true)

def VersionList.releaseShared (l : VersionList) (lock : ReadLockInfo) : VersionList :=
  let r := l.get lock.readerIdx
  l.set lock.readerIdx (r.setCount lock.type (countDown (r.count lock.type)))

/-! ### What the parts do -/

theorem tryGrabLocal_none {r : ReadCount} {type : LockType} {pick : Option VersionID} {index : Nat}
    (h : tryGrabLocal r type pick index = none) :
    r.version = 0 ∨ (∃ v, pick = some v ∧ v.version ≠ r.version) ∨ r.count type = 0 := by
  unfold tryGrabLocal at h
  split at h
  · rename_i hactive
    exact .inl (by simpa [ReadCount.isActive] using hactive)
  split at h
  · rename_i hpick
    cases pick with
    | none => cases hpick
    | some v => exact .inr (.inl ⟨v, rfl, by simpa using hpick⟩)
  split at h
  · rename_i hcount
    exact .inr (.inr hcount)
  · cases h

theorem tryGrabLocal_some {r r' : ReadCount} {type : LockType} {pick : Option VersionID}
    {index : Nat} {lock : ReadLockInfo} (h : tryGrabLocal r type pick index = some (lock, r')) :
    r.version ≠ 0 ∧ 0 < r.count type ∧
      lock = ⟨r.version, index, r.currentTop, r.filesize, type⟩ ∧
      r' = r.setCount type (r.count type + 1) := by
  unfold tryGrabLocal at h
  split at h
  · cases h
  rename_i hactive
  split at h
  · cases h
  split at h
  · cases h
  rename_i hcount
  cases h
  refine ⟨?_, by omega, rfl, rfl⟩
  simpa [ReadCount.isActive] using hactive

/-- A lock that the list grants is of the version in its entry, which is the one asked for, and
which is the newest or already locked. -/
theorem VersionList.grabShared_ok {l l' : VersionList} {type : LockType} {pick : Option VersionID}
    {lock : ReadLockInfo} (h : l.grabShared type pick = .ok (lock, l')) :
    lock.readerIdx = (pick.map (·.index)).getD l.newest ∧
    (∀ v, pick = some v → v.version = (l.get v.index).version) ∧
    (lock.readerIdx = l.newest ∨ ∃ t, 0 < (l.get lock.readerIdx).count t) ∧
    lock = ⟨(l.get lock.readerIdx).version, lock.readerIdx, (l.get lock.readerIdx).currentTop,
      (l.get lock.readerIdx).filesize, type⟩ ∧
    l' = l.set lock.readerIdx
      ((l.get lock.readerIdx).setCount type ((l.get lock.readerIdx).count type + 1)) := by
  unfold VersionList.grabShared at h
  simp only at h
  split at h
  · cases h
  rename_i hpick
  split at h
  · cases h
  rename_i hfrozen
  split at h
  · cases h
  rename_i hlive
  simp only [populateReadLock, Except.ok.injEq, Prod.mk.injEq] at h
  obtain ⟨rfl, rfl⟩ := h
  refine ⟨rfl, ?_, ?_, rfl, rfl⟩
  · intro v hv
    subst hv
    simpa using hpick
  · dsimp only
    by_cases hn : (pick.map (·.index)).getD l.newest = l.newest
    · exact .inl hn
    · refine .inr ?_
      by_cases hf : (l.get ((pick.map (·.index)).getD l.newest)).countFrozen = 0
      · refine ⟨.live, Nat.pos_of_ne_zero fun h0 => ?_⟩
        by_cases ht : type = .frozen
        · exact hfrozen ⟨hn, ht, hf, h0⟩
        · exact hlive ⟨hn, ht, h0⟩
      · exact ⟨.frozen, Nat.pos_of_ne_zero hf⟩

theorem version_recordLocal {r : ReadCount} {lock : ReadLockInfo} (h : lock.version ≠ 0) :
    (recordLocal r lock).version ≠ 0 := by
  unfold recordLocal
  split
  · rename_i hr
    simpa [ReadCount.isActive] using hr
  · simpa using h

theorem releaseLocal_spec {r : ReadCount} {lock : ReadLockInfo} (h : 0 < r.count lock.type) :
    ((releaseLocal r lock).2 = decide (r.count lock.type = 1)) ∧
    (∀ t, (releaseLocal r lock).1.count t =
      if t = lock.type then r.count lock.type - 1 else r.count t) ∧
    ((∀ t, (releaseLocal r lock).1.count t = 0) ∧ (releaseLocal r lock).1.version = 0 ∨
      (∃ t, 0 < (releaseLocal r lock).1.count t) ∧
        (releaseLocal r lock).1.SameVersion r) := by
  unfold releaseLocal
  simp only [countDown_of_pos h]
  split
  · rename_i hpos
    refine ⟨?_, fun t => ReadCount.count_setCount .., .inr ⟨⟨lock.type, ?_⟩, ?_⟩⟩
    · simp only [Bool.false_eq, decide_eq_false_iff_not]
      omega
    · simpa using hpos
    · exact ⟨ReadCount.version_setCount .., ReadCount.currentTop_setCount ..,
        ReadCount.filesize_setCount ..⟩
  · rename_i hpos
    have hone : r.count lock.type = 1 := by omega
    split
    · rename_i hzero
      obtain ⟨h1, h2, h3⟩ := hzero
      have hall : ∀ t, (r.setCount lock.type (r.count lock.type - 1)).count t = 0 := by
        intro t
        cases t with
        | frozen => exact h3
        | live => exact h1
        | full => exact h2
      refine ⟨by simp [hone], fun t => ?_, .inl ⟨fun t => ?_, rfl⟩⟩
      · rw [← ReadCount.count_setCount]
        cases t <;> rfl
      · refine Eq.trans ?_ (hall t)
        cases t <;> rfl
    · rename_i hnz
      refine ⟨by simp [hone], fun t => ReadCount.count_setCount .., .inr ⟨?_, ?_⟩⟩
      · refine Classical.byContradiction fun hnone => hnz ?_
        have hall : ∀ t, (r.setCount lock.type (r.count lock.type - 1)).count t = 0 := fun t =>
          Nat.eq_zero_of_not_pos fun hp => hnone ⟨t, hp⟩
        exact ⟨hall .live, hall .full, hall .frozen⟩
      · exact ⟨ReadCount.version_setCount .., ReadCount.currentTop_setCount ..,
          ReadCount.filesize_setCount ..⟩

end Llbt.Versions
