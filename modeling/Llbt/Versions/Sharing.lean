import Llbt.Versions.List

/-!
# Processes sharing the version list

Any number of processes grab and release read locks, add versions and purge old ones.  A process
runs one operation at a time (`DB::m_mutex`), but an operation has several parts, and other
processes act between them: `Pc` says how far a process has come.

* `Step`, `Reachable` — every interleaving of these parts;
* `Inv` — the invariant: an entry counts, for each lock type, the processes that have a lock of that
  type, and a cached entry with a lock agrees with the shared one;
* `Reachable.inv` — it holds in every reachable state;
* `locked_versions_stay` — what readers rely on.
-/

set_option autoImplicit false

namespace Llbt.Versions

/-- How far a process has come in an operation on the list. -/
inductive Pc where
  | idle
  /-- `grab_read_lock`, before the look into the cache; `index` has been read. -/
  | tryLocal (type : LockType) (pick : Option VersionID) (index : Nat)
  /-- `grab_read_lock`, before the mutex of the list is taken. -/
  | shared (type : LockType) (pick : Option VersionID)
  /-- `grab_read_lock`, the shared count is up but the cache does not know yet. -/
  | record (lock : ReadLockInfo)
  /-- `release_read_lock`, the cached count is zero but the shared one is still up. -/
  | releaseShared (lock : ReadLockInfo)
  deriving DecidableEq, Repr

/-- The lock that is counted in the list but not in the cache. -/
def Pc.between : Pc → Option ReadLockInfo
  | .record lock => some lock
  | .releaseShared lock => some lock
  | _ => none

/-- What `add_version` stored in an entry. -/
structure Added where
  index : Nat
  version : Nat
  topRef : Nat
  fileSize : Nat
  deriving DecidableEq, Repr

/-- The list, the cache and position of every process, and two records of the past: the locks each
process has grabbed and not released, and the versions added, the last one first. -/
structure State (P : Type) where
  readers : VersionList
  cache : P → Nat → ReadCount
  pc : P → Pc
  held : P → List ReadLockInfo
  added : List Added

variable {P : Type} [DecidableEq P]

def State.setPc (s : State P) (p : P) (pc : Pc) : State P :=
  { s with pc := Function.update s.pc p pc }

def State.setCache (s : State P) (p : P) (i : Nat) (r : ReadCount) : State P :=
  { s with cache := Function.update s.cache p (Function.update (s.cache p) i r) }

def State.setHeld (s : State P) (p : P) (held : List ReadLockInfo) : State P :=
  { s with held := Function.update s.held p held }

inductive Step : State P → State P → Prop
  /-- `grab_read_lock` starts; without a version to pick it looks at the newest entry. -/
  | start {s : State P} {p : P} (type : LockType) (pick : Option VersionID) :
    s.pc p = .idle →
      Step s (s.setPc p (.tryLocal type pick ((pick.map (·.index)).getD s.readers.newest)))
  | localHit {s : State P} {p : P} {type : LockType} {pick : Option VersionID} {index : Nat}
      {lock : ReadLockInfo} {r : ReadCount} :
    s.pc p = .tryLocal type pick index →
    tryGrabLocal (s.cache p index) type pick index = some (lock, r) →
    (s.cache p index).count type + 1 < 2 ^ 32 →
      Step s (((s.setCache p index r).setHeld p (lock :: s.held p)).setPc p .idle)
  | localMiss {s : State P} {p : P} {type : LockType} {pick : Option VersionID} {index : Nat} :
    s.pc p = .tryLocal type pick index →
    tryGrabLocal (s.cache p index) type pick index = none →
      Step s (s.setPc p (.shared type pick))
  | shared {s : State P} {p : P} {type : LockType} {pick : Option VersionID} {lock : ReadLockInfo}
      {readers : VersionList} :
    s.pc p = .shared type pick →
    s.readers.grabShared type pick = .ok (lock, readers) →
    (s.readers.get lock.readerIdx).count type + 1 < 2 ^ 32 →
      Step s ({ s with readers := readers }.setPc p (.record lock))
  | badVersion {s : State P} {p : P} {type : LockType} {pick : Option VersionID} {e : BadVersion} :
    s.pc p = .shared type pick →
    s.readers.grabShared type pick = .error e →
      Step s (s.setPc p .idle)
  | record {s : State P} {p : P} {lock : ReadLockInfo} :
    s.pc p = .record lock →
      Step s (((s.setCache p lock.readerIdx (recordLocal (s.cache p lock.readerIdx) lock)).setHeld p
        (lock :: s.held p)).setPc p .idle)
  /-- `release_read_lock` of a lock that the process has. -/
  | release {s : State P} {p : P} {lock : ReadLockInfo} {r : ReadCount} {last : Bool} :
    s.pc p = .idle → lock ∈ s.held p →
    releaseLocal (s.cache p lock.readerIdx) lock = (r, last) →
      Step s (((s.setCache p lock.readerIdx r).setHeld p ((s.held p).erase lock)).setPc p
        (if last then .releaseShared lock else .idle))
  | releaseShared {s : State P} {p : P} {lock : ReadLockInfo} :
    s.pc p = .releaseShared lock →
      Step s ({ s with readers := s.readers.releaseShared lock }.setPc p .idle)
  /-- `DB::do_commit` adds a version after the newest one. -/
  | addVersion {s : State P} {p : P} (topRef fileSize version : Nat) :
    s.pc p = .idle → (s.readers.get s.readers.newest).version < version →
      Step s { s with
        readers := s.readers.addVersion topRef fileSize version
        added := ⟨(s.readers.addVersion topRef fileSize version).newest, version, topRef, fileSize⟩
          :: s.added }
  /-- `cleanup_versions`.  Its caller is `DB::low_level_commit`, in a write transaction, whose own
  lock is a `Live` lock of the newest version. -/
  | cleanup {s : State P} {p : P} {lock : ReadLockInfo} :
    s.pc p = .idle → lock ∈ s.held p → lock.type = .live → lock.readerIdx = s.readers.newest →
      Step s { s with readers := s.readers.purgeVersions.1 }

/-- A session starts with `init_versioning` on a list with at least one entry. -/
structure Initial (s : State P) : Prop where
  readers : ∃ (l : VersionList) (topRef fileSize version : Nat), 0 < l.data.length ∧ version ≠ 0 ∧
    s.readers = l.initVersioning topRef fileSize version ∧ s.added = [⟨0, version, topRef, fileSize⟩]
  cache : ∀ p i, s.cache p i = {}
  pc : ∀ p, s.pc p = .idle
  held : ∀ p, s.held p = []

inductive Reachable : State P → Prop
  | initial {s : State P} : Initial s → Reachable s
  | step {s s' : State P} : Reachable s → Step s s' → Reachable s'

/-! ## The invariant -/

def isLockOf (i : Nat) (t : LockType) (lock : ReadLockInfo) : Bool :=
  lock.readerIdx == i && lock.type == t

/-- The process is counted in entry `i` for type `t`. -/
def State.counted (s : State P) (i : Nat) (t : LockType) (p : P) : Bool :=
  (s.cache p i).count t != 0 || (s.pc p).between.any (isLockOf i t)

/-- The lock is of the version in this entry. -/
structure ReadLockInfo.Matches (lock : ReadLockInfo) (r : ReadCount) : Prop where
  version : lock.version = r.version
  topRef : lock.topRef = r.currentTop
  fileSize : lock.fileSize = r.filesize

/-- The last version that `add_version` stored in entry `i`. -/
def State.stored (s : State P) (i : Nat) : Option Added := s.added.find? (·.index == i)

/-- What is known about the rest of an operation.  A process that goes on to the list has no lock of
the type it wants on the entry it will find there; in the two gaps the cached count is zero and the
lock is of the version in its entry. -/
def State.PcOk (s : State P) (p : P) : Pc → Prop
  | .idle => True
  | .tryLocal _ (some v) index => index = v.index
  | .tryLocal _ none index =>
    index = s.readers.newest ∨ ∀ t, (s.cache p s.readers.newest).count t = 0
  | .shared type (some v) => (s.cache p v.index).count type = 0 ∨
      (s.cache p v.index).version ≠ 0 ∧ (s.cache p v.index).version ≠ v.version
  | .shared type none => (s.cache p s.readers.newest).count type = 0
  | .record lock | .releaseShared lock => (s.cache p lock.readerIdx).count lock.type = 0 ∧
      lock.Matches (s.readers.get lock.readerIdx) ∧ lock.version ≠ 0

/-- A cached entry is free, or it has a lock and agrees with the shared entry. -/
structure CacheOk (r shared : ReadCount) : Prop where
  free : r.version = 0 → ∀ t, r.count t = 0
  active : r.version ≠ 0 → (∃ t, 0 < r.count t) ∧ r.SameVersion shared

structure Inv [Fintype P] (s : State P) : Prop where
  allocating : s.readers.allocating = s.readers.newest
  newest_active : (s.readers.get s.readers.newest).version ≠ 0
  newest_added : s.added.head?.map (·.index) = some s.readers.newest
  free : ∀ i, (s.readers.get i).version = 0 → ∀ t, (s.readers.get i).count t = 0
  stored : ∀ i, (s.readers.get i).version ≠ 0 → s.stored i = some
    ⟨i, (s.readers.get i).version, (s.readers.get i).currentTop, (s.readers.get i).filesize⟩
  counts : ∀ i t, (s.readers.get i).count t =
    (Finset.univ.filter fun p => s.counted i t p = true).card
  cache : ∀ p i, CacheOk (s.cache p i) (s.readers.get i)
  held_count : ∀ p i t, (s.cache p i).count t = (s.held p).countP (isLockOf i t)
  held_match : ∀ p, ∀ lock ∈ s.held p, lock.Matches (s.cache p lock.readerIdx)
  pcs : ∀ p, s.PcOk p (s.pc p)

section Fields

variable (s : State P) (p q : P) (i j : Nat)

@[simp] theorem State.setPc_readers (pc : Pc) : (s.setPc p pc).readers = s.readers := rfl
@[simp] theorem State.setPc_cache (pc : Pc) : (s.setPc p pc).cache = s.cache := rfl
@[simp] theorem State.setPc_held (pc : Pc) : (s.setPc p pc).held = s.held := rfl
@[simp] theorem State.setPc_added (pc : Pc) : (s.setPc p pc).added = s.added := rfl
@[simp] theorem State.setPc_pc (pc : Pc) :
    (s.setPc p pc).pc q = if q = p then pc else s.pc q := Function.update_apply ..

@[simp] theorem State.setCache_readers (r : ReadCount) :
    (s.setCache p i r).readers = s.readers := rfl
@[simp] theorem State.setCache_pc (r : ReadCount) : (s.setCache p i r).pc = s.pc := rfl
@[simp] theorem State.setCache_held (r : ReadCount) : (s.setCache p i r).held = s.held := rfl
@[simp] theorem State.setCache_added (r : ReadCount) : (s.setCache p i r).added = s.added := rfl
@[simp] theorem State.setCache_cache (r : ReadCount) :
    (s.setCache p i r).cache q j = if q = p ∧ j = i then r else s.cache q j := by
  unfold State.setCache
  by_cases hq : q = p
  · subst hq
    by_cases hj : j = i <;> simp [hj]
  · simp [hq]

@[simp] theorem State.setHeld_readers (held : List ReadLockInfo) :
    (s.setHeld p held).readers = s.readers := rfl
@[simp] theorem State.setHeld_pc (held : List ReadLockInfo) : (s.setHeld p held).pc = s.pc := rfl
@[simp] theorem State.setHeld_cache (held : List ReadLockInfo) :
    (s.setHeld p held).cache = s.cache := rfl
@[simp] theorem State.setHeld_added (held : List ReadLockInfo) :
    (s.setHeld p held).added = s.added := rfl
@[simp] theorem State.setHeld_held (held : List ReadLockInfo) :
    (s.setHeld p held).held q = if q = p then held else s.held q := Function.update_apply ..

end Fields

section Inv

variable [Fintype P] {s : State P} {p : P}

omit [DecidableEq P] in
theorem Inv.count_pos (h : Inv s) {i : Nat} {t : LockType} (hp : s.counted i t p = true) :
    0 < (s.readers.get i).count t := by
  rw [h.counts i t]
  exact Finset.card_pos.mpr ⟨p, Finset.mem_filter.mpr ⟨Finset.mem_univ p, hp⟩⟩

omit [DecidableEq P] [Fintype P] in
theorem counted_of_cache {i : Nat} {t : LockType} (h : 0 < (s.cache p i).count t) :
    s.counted i t p = true := by
  simp [State.counted, Nat.pos_iff_ne_zero.mp h]

omit [DecidableEq P] [Fintype P] in
theorem counted_of_between {lock : ReadLockInfo} (h : (s.pc p).between = some lock) :
    s.counted lock.readerIdx lock.type p = true := by
  simp [State.counted, isLockOf, h]

omit [DecidableEq P] in
theorem Inv.shared_active (h : Inv s) {i : Nat} (hi : (s.cache p i).version ≠ 0) :
    (s.readers.get i).version ≠ 0 ∧ ∃ t, 0 < (s.readers.get i).count t := by
  obtain ⟨⟨t, ht⟩, hsame, -⟩ := (h.cache p i).active hi
  exact ⟨hsame ▸ hi, t, h.count_pos (counted_of_cache ht)⟩

omit [DecidableEq P] in
theorem Inv.held_entry (h : Inv s) {lock : ReadLockInfo} (hlock : lock ∈ s.held p) :
    0 < (s.cache p lock.readerIdx).count lock.type ∧ (s.cache p lock.readerIdx).version ≠ 0 ∧
      lock.Matches (s.readers.get lock.readerIdx) := by
  have hpos : 0 < (s.cache p lock.readerIdx).count lock.type := by
    rw [h.held_count]
    exact List.countP_pos_iff.mpr ⟨lock, hlock, by simp [isLockOf]⟩
  have hactive : (s.cache p lock.readerIdx).version ≠ 0 := by
    intro h0
    have := (h.cache p _).free h0 lock.type
    omega
  obtain ⟨-, h1, h2, h3⟩ := (h.cache p _).active hactive
  obtain ⟨m1, m2, m3⟩ := h.held_match p lock hlock
  exact ⟨hpos, hactive, m1.trans h1, m2.trans h2, m3.trans h3⟩

omit [DecidableEq P] [Fintype P] in
theorem State.PcOk.congr {s s' : State P} {p : P} {pc : Pc} (h : s.PcOk p pc)
    (hreaders : s'.readers = s.readers) (hcache : s'.cache p = s.cache p) : s'.PcOk p pc := by
  unfold State.PcOk at h ⊢
  rw [hreaders, hcache]
  exact h

/-! ## Steps inside one process -/

/-- A step that leaves the list alone and who is counted in it: the process changes one cached
entry, the locks it has and how far it has come. -/
theorem Inv.inside (h : Inv s) {i : Nat} {r : ReadCount} {held : List ReadLockInfo} {pc : Pc}
    (hr : CacheOk r (s.readers.get i))
    (hcounted : ∀ j t, (((s.setCache p i r).setHeld p held).setPc p pc).counted j t p =
      s.counted j t p)
    (hcount : ∀ j t, (if j = i then r else s.cache p j).count t = held.countP (isLockOf j t))
    (hmatch : ∀ lock ∈ held, lock.Matches (if lock.readerIdx = i then r
      else s.cache p lock.readerIdx))
    (hpc : (s.setCache p i r).PcOk p pc) :
    Inv (((s.setCache p i r).setHeld p held).setPc p pc) := by
  have hother : ∀ q, q ≠ p → (((s.setCache p i r).setHeld p held).setPc p pc).cache q =
      s.cache q := by
    intro q hq
    funext j
    simp [hq]
  refine { h with counts := ?_, cache := ?_, held_count := ?_, held_match := ?_, pcs := ?_ }
  · intro j t
    have hall : ∀ q, (((s.setCache p i r).setHeld p held).setPc p pc).counted j t q =
        s.counted j t q := by
      intro q
      by_cases hq : q = p
      · subst hq
        exact hcounted j t
      · simp only [State.counted, hother q hq, State.setPc_pc, State.setHeld_pc,
          State.setCache_pc, if_neg hq]
    simp only [hall]
    exact h.counts j t
  · intro q j
    simp only [State.setPc_cache, State.setHeld_cache, State.setCache_cache, State.setPc_readers,
      State.setHeld_readers, State.setCache_readers]
    split
    · rename_i hqj
      rw [hqj.2]
      exact hr
    · exact h.cache q j
  · intro q j t
    by_cases hq : q = p
    · subst hq
      simpa using hcount j t
    · simpa [hq] using h.held_count q j t
  · intro q lock hlock
    by_cases hq : q = p
    · subst hq
      simp only [State.setPc_held, State.setHeld_held, if_true] at hlock
      simpa using hmatch lock hlock
    · simp only [State.setPc_held, State.setHeld_held, if_neg hq] at hlock
      simpa [hq] using h.held_match q lock hlock
  · intro q
    by_cases hq : q = p
    · subst hq
      rw [State.setPc_pc, if_pos rfl]
      exact hpc.congr rfl rfl
    · rw [State.setPc_pc, if_neg hq]
      exact (h.pcs q).congr rfl (hother q hq)

theorem Inv.move (h : Inv s) {pc : Pc} (hold : (s.pc p).between = none) (hnew : pc.between = none)
    (hpc : s.PcOk p pc) : Inv (s.setPc p pc) := by
  have heq : s.setPc p pc = ((s.setCache p 0 (s.cache p 0)).setHeld p (s.held p)).setPc p pc := by
    simp [State.setPc, State.setHeld, State.setCache]
  have hsame : s.setCache p 0 (s.cache p 0) = s := by simp [State.setCache]
  rw [heq]
  refine h.inside (h.cache p 0) ?_ ?_ ?_ (by rw [hsame]; exact hpc)
  · intro j t
    rw [hsame]
    simp only [State.counted, State.setPc_cache, State.setHeld_cache, State.setPc_pc, if_true, hold,
      hnew]
  · intro j t
    rw [← h.held_count]
    split
    · rename_i hj
      rw [hj]
    · rfl
  · intro lock hlock
    have := h.held_match p lock hlock
    split
    · rename_i hj
      rwa [← hj]
    · exact this

theorem Inv.start (h : Inv s) (type : LockType) (pick : Option VersionID) (hpc : s.pc p = .idle) :
    Inv (s.setPc p (.tryLocal type pick ((pick.map (·.index)).getD s.readers.newest))) := by
  refine h.move (by rw [hpc]; rfl) rfl ?_
  cases pick with
  | none => exact .inl rfl
  | some v => rfl

theorem Inv.localMiss (h : Inv s) {type : LockType} {pick : Option VersionID} {index : Nat}
    (hpc : s.pc p = .tryLocal type pick index)
    (hmiss : tryGrabLocal (s.cache p index) type pick index = none) :
    Inv (s.setPc p (.shared type pick)) := by
  have hok := h.pcs p
  rw [hpc] at hok
  refine h.move (by rw [hpc]; rfl) rfl ?_
  have hfree : (s.cache p index).version = 0 → (s.cache p index).count type = 0 :=
    fun h0 => (h.cache p index).free h0 type
  cases pick with
  | none =>
    rcases hok with rfl | hzero
    · rcases tryGrabLocal_none hmiss with h0 | ⟨v, hv, -⟩ | h0
      · exact hfree h0
      · cases hv
      · exact h0
    · exact hzero type
  | some v =>
    have hindex : index = v.index := hok
    subst hindex
    rcases tryGrabLocal_none hmiss with h0 | ⟨w, hw, hne⟩ | h0
    · exact .inl (hfree h0)
    · cases hw
      by_cases hactive : (s.cache p v.index).version = 0
      · exact .inl (hfree hactive)
      · exact .inr ⟨hactive, hne.symm⟩
    · exact .inl h0

theorem Inv.localHit (h : Inv s) {type : LockType} {pick : Option VersionID} {index : Nat}
    {lock : ReadLockInfo} {r : ReadCount} (hpc : s.pc p = .tryLocal type pick index)
    (hhit : tryGrabLocal (s.cache p index) type pick index = some (lock, r)) :
    Inv (((s.setCache p index r).setHeld p (lock :: s.held p)).setPc p .idle) := by
  obtain ⟨hactive, hpos, rfl, rfl⟩ := tryGrabLocal_some hhit
  obtain ⟨-, hsame⟩ := (h.cache p index).active hactive
  refine h.inside ⟨fun h0 => ?_, fun _ => ⟨⟨type, by simp⟩, by simpa [ReadCount.SameVersion]
    using hsame⟩⟩ ?_ ?_ ?_ trivial
  · rw [ReadCount.version_setCount] at h0
    exact absurd h0 hactive
  · intro j t
    -- the count was positive before
    simp only [State.counted, State.setPc_cache, State.setHeld_cache, State.setCache_cache,
      State.setPc_pc, if_true, true_and, hpc]
    by_cases hj : j = index
    · subst hj
      by_cases ht : t = type
      · subst ht
        simp [Nat.pos_iff_ne_zero.mp hpos]
      · simp [ht, Pc.between]
    · simp [hj, Pc.between]
  · intro j t
    rw [List.countP_cons, ← h.held_count p j t]
    by_cases hj : j = index
    · subst hj
      by_cases ht : t = type
      · simp [isLockOf, ht]
      · simp [isLockOf, ht, Ne.symm ht]
    · simp [isLockOf, hj, Ne.symm hj]
  · intro l hl
    rcases List.mem_cons.mp hl with rfl | hl
    · rw [if_pos rfl]
      exact ⟨by simp, by simp, by simp⟩
    · obtain ⟨m1, m2, m3⟩ := h.held_match p l hl
      split
      · rename_i hidx
        rw [hidx] at m1 m2 m3
        exact ⟨by simpa using m1, by simpa using m2, by simpa using m3⟩
      · exact ⟨m1, m2, m3⟩

theorem Inv.record (h : Inv s) {lock : ReadLockInfo} (hpc : s.pc p = .record lock) :
    Inv (((s.setCache p lock.readerIdx (recordLocal (s.cache p lock.readerIdx) lock)).setHeld p
      (lock :: s.held p)).setPc p .idle) := by
  have hok := h.pcs p
  rw [hpc] at hok
  obtain ⟨hzero, hmatch, hversion⟩ := hok
  -- the cached entry has the version of the lock, and its other counts stay
  have hentry : (recordLocal (s.cache p lock.readerIdx) lock).SameVersion
        (s.readers.get lock.readerIdx) ∧
      ∀ t, (recordLocal (s.cache p lock.readerIdx) lock).count t =
        if t = lock.type then 1 else (s.cache p lock.readerIdx).count t := by
    unfold recordLocal
    by_cases hactive : (s.cache p lock.readerIdx).version = 0
    · have hfree := (h.cache p _).free hactive
      obtain ⟨m1, m2, m3⟩ := hmatch
      rw [if_neg (by simp [ReadCount.isActive, hactive])]
      refine ⟨⟨by simpa using m1, by simpa using m2, by simpa using m3⟩, fun t => ?_⟩
      rw [ReadCount.count_setCount]
      split
      · rfl
      · rw [hfree t]
        cases t <;> rfl
    · obtain ⟨-, hsame⟩ := (h.cache p _).active hactive
      rw [if_pos (by simp [ReadCount.isActive, hactive])]
      exact ⟨by simpa [ReadCount.SameVersion] using hsame, fun t => ReadCount.count_setCount ..⟩
  obtain ⟨hsame, hcounts⟩ := hentry
  refine h.inside ⟨fun h0 => absurd h0 (version_recordLocal hversion), fun _ =>
    ⟨⟨lock.type, by simp [hcounts]⟩, hsame⟩⟩ ?_ ?_ ?_ trivial
  · intro j t
    simp only [State.counted, State.setPc_cache, State.setHeld_cache, State.setCache_cache,
      State.setPc_pc, if_true, true_and, hpc, Pc.between, isLockOf, Option.any_some,
      Option.any_none, Bool.or_false]
    by_cases hj : j = lock.readerIdx
    · subst hj
      by_cases ht : t = lock.type
      · simp [hcounts, ht]
      · simp [hcounts, ht, Ne.symm ht]
    · simp [hj, Ne.symm hj]
  · intro j t
    rw [List.countP_cons, ← h.held_count p j t]
    by_cases hj : j = lock.readerIdx
    · subst hj
      by_cases ht : t = lock.type
      · simp [isLockOf, ht, hcounts, hzero]
      · simp [isLockOf, ht, Ne.symm ht, hcounts]
    · simp [isLockOf, hj, Ne.symm hj]
  · have hmatches : ∀ l : ReadLockInfo, l.Matches (s.readers.get lock.readerIdx) →
        l.Matches (recordLocal (s.cache p lock.readerIdx) lock) := fun l hl =>
      ⟨hl.version.trans hsame.1.symm, hl.topRef.trans hsame.2.1.symm,
        hl.fileSize.trans hsame.2.2.symm⟩
    intro l hl
    rcases List.mem_cons.mp hl with rfl | hl
    · rw [if_pos rfl]
      exact hmatches l hmatch
    · split
      · rename_i hidx
        exact hmatches l (hidx ▸ (h.held_entry hl).2.2)
      · exact h.held_match p l hl

theorem Inv.release (h : Inv s) {lock : ReadLockInfo} {r : ReadCount} {last : Bool}
    (hpc : s.pc p = .idle) (hlock : lock ∈ s.held p)
    (hrelease : releaseLocal (s.cache p lock.readerIdx) lock = (r, last)) :
    Inv (((s.setCache p lock.readerIdx r).setHeld p ((s.held p).erase lock)).setPc p
      (if last then .releaseShared lock else .idle)) := by
  obtain ⟨hpos, hactive, hmatch⟩ := h.held_entry hlock
  obtain ⟨hlast, hcounts, hcase⟩ := releaseLocal_spec hpos
  rw [hrelease] at hlast hcounts hcase
  dsimp only at hlast hcounts hcase
  obtain ⟨-, hsame⟩ := (h.cache p _).active hactive
  have herase : ∀ j t, ((s.held p).erase lock).countP (isLockOf j t) =
      if isLockOf j t lock then (s.cache p j).count t - 1 else (s.cache p j).count t := by
    intro j t
    rw [List.countP_erase, ← h.held_count p j t]
    by_cases hm : isLockOf j t lock = true
    · simp [hlock, hm]
    · simp [hm]
  refine h.inside ⟨?_, ?_⟩ ?_ ?_ ?_ ?_
  · intro h0 t
    rcases hcase with ⟨hzero, -⟩ | ⟨-, hv, -⟩
    · exact hzero t
    · exact absurd (hv.symm.trans h0) hactive
  · intro hne
    rcases hcase with ⟨-, h0⟩ | ⟨hex, hv⟩
    · exact absurd h0 hne
    · exact ⟨hex, hv.1.trans hsame.1, hv.2.1.trans hsame.2.1, hv.2.2.trans hsame.2.2⟩
  · intro j t
    simp only [State.counted, State.setPc_cache, State.setHeld_cache, State.setCache_cache,
      State.setPc_pc, if_true, true_and, hpc, Pc.between, Option.any_none, Bool.or_false, hlast]
    by_cases hone : (s.cache p lock.readerIdx).count lock.type = 1
    · by_cases hj : j = lock.readerIdx
      · subst hj
        by_cases ht : t = lock.type
        · simp [hone, ht, isLockOf]
        · simp [hone, ht, hcounts, isLockOf, Ne.symm ht]
      · simp [hone, hj, isLockOf, Ne.symm hj]
    · by_cases hj : j = lock.readerIdx
      · subst hj
        by_cases ht : t = lock.type
        · subst ht
          have hmore : r.count lock.type ≠ 0 := by
            rw [hcounts, if_pos rfl]
            omega
          have hold := bne_iff_ne.mpr (Nat.pos_iff_ne_zero.mp hpos)
          simp [hone, hold, bne_iff_ne.mpr hmore]
        · simp [hone, ht, hcounts]
      · simp [hone, hj]
  · intro j t
    rw [herase]
    by_cases hj : j = lock.readerIdx
    · subst hj
      by_cases ht : t = lock.type
      · simp [isLockOf, ht, hcounts]
      · simp [isLockOf, ht, Ne.symm ht, hcounts]
    · simp [isLockOf, hj, Ne.symm hj]
  · intro l hl
    have hl' := List.mem_of_mem_erase hl
    split
    · rename_i hidx
      rcases hcase with ⟨hzero, -⟩ | ⟨-, hv⟩
      · -- no lock is left on this entry
        have hcount := herase l.readerIdx l.type
        have hnone : ((s.held p).erase lock).countP (isLockOf l.readerIdx l.type) = 0 := by
          have := hzero l.type
          rw [hcounts] at this
          rw [hcount, hidx]
          by_cases ht : l.type = lock.type
          · rw [if_pos ht] at this
            simp [isLockOf, ht, this]
          · rw [if_neg ht] at this
            simp [isLockOf, Ne.symm ht, this]
        exact absurd hnone (Nat.pos_iff_ne_zero.mp
          (List.countP_pos_iff.mpr ⟨l, hl, by simp [isLockOf]⟩))
      · obtain ⟨m1, m2, m3⟩ := h.held_match p l hl'
        rw [hidx] at m1 m2 m3
        exact ⟨m1.trans hv.1.symm, m2.trans hv.2.1.symm, m3.trans hv.2.2.symm⟩
    · exact h.held_match p l hl'
  · split
    · rename_i htrue
      rw [htrue] at hlast
      have hone : (s.cache p lock.readerIdx).count lock.type = 1 := by simpa using hlast.symm
      refine ⟨?_, hmatch, ?_⟩
      · simp [hcounts, hone]
      · rw [hmatch.version, ← hsame.1]
        exact hactive
    · trivial

/-! ## Steps on the list -/

theorem card_counted_succ (s s' : State P) {i : Nat} {t : LockType}
    (hother : ∀ q, q ≠ p → s'.counted i t q = s.counted i t q) (hold : s.counted i t p = false)
    (hnew : s'.counted i t p = true) :
    (Finset.univ.filter fun q => s'.counted i t q = true).card =
      (Finset.univ.filter fun q => s.counted i t q = true).card + 1 := by
  have hnot : p ∉ Finset.univ.filter fun q => s.counted i t q = true := by simp [hold]
  rw [← Finset.card_insert_of_notMem hnot]
  congr 1
  ext q
  simp only [Finset.mem_filter, Finset.mem_univ, true_and, Finset.mem_insert]
  by_cases hq : q = p
  · subst hq
    simp [hnew]
  · simp [hq, hother q hq]

theorem Inv.onList (h : Inv s) {i n : Nat} {t : LockType} {pc : Pc} (hlt : i < s.readers.data.length)
    (hversion : (s.readers.get i).version ≠ 0)
    (hcount : n = (Finset.univ.filter fun q => State.counted
      ({ s with readers := s.readers.set i ((s.readers.get i).setCount t n) }.setPc p pc) i t q =
        true).card)
    (hcounted : ∀ j t', ¬ (j = i ∧ t' = t) → State.counted
      ({ s with readers := s.readers.set i ((s.readers.get i).setCount t n) }.setPc p pc) j t' p =
        s.counted j t' p)
    (hpc : s.PcOk p pc) :
    Inv ({ s with readers := s.readers.set i ((s.readers.get i).setCount t n) }.setPc p pc) := by
  have hget := s.readers.get_set ((s.readers.get i).setCount t n) hlt
  -- an entry keeps its version
  have hsame : ∀ j, ((s.readers.set i ((s.readers.get i).setCount t n)).get j).SameVersion
      (s.readers.get j) := by
    intro j
    rw [hget]
    split
    · rename_i hj
      rw [hj]
      exact ⟨ReadCount.version_setCount .., ReadCount.currentTop_setCount ..,
        ReadCount.filesize_setCount ..⟩
    · exact ⟨rfl, rfl, rfl⟩
  have hpcs : ∀ q pc', s.PcOk q pc' → State.PcOk
      { s with readers := s.readers.set i ((s.readers.get i).setCount t n) } q pc' := by
    intro q pc' hq
    cases pc' with
    | idle => trivial
    | tryLocal type pick index => cases pick <;> exact hq
    | shared type pick => cases pick <;> exact hq
    | record lock | releaseShared lock =>
      obtain ⟨h0, ⟨m1, m2, m3⟩, hv⟩ := hq
      obtain ⟨s1, s2, s3⟩ := hsame lock.readerIdx
      exact ⟨h0, ⟨m1.trans s1.symm, m2.trans s2.symm, m3.trans s3.symm⟩, hv⟩
  refine { allocating := h.allocating, newest_added := h.newest_added,
           held_count := h.held_count, held_match := h.held_match, newest_active := ?_,
           free := ?_, stored := ?_, counts := ?_, cache := ?_, pcs := ?_ }
  · exact (hsame _).1 ▸ h.newest_active
  · intro j hj t'
    have hj' : (s.readers.get j).version = 0 := (hsame j).1 ▸ hj
    have hne : j ≠ i := fun he => hversion (he ▸ hj')
    simp only [State.setPc_readers, hget, if_neg hne]
    exact h.free j hj' t'
  · intro j hj
    obtain ⟨s1, s2, s3⟩ := hsame j
    have := h.stored j (s1 ▸ hj)
    simp only [State.setPc_readers, s1, s2, s3]
    exact this
  · intro j t'
    by_cases hjt : j = i ∧ t' = t
    · obtain ⟨rfl, rfl⟩ := hjt
      rw [← hcount]
      simp [hget]
    · have hall : ∀ q, State.counted
          ({ s with readers := s.readers.set i ((s.readers.get i).setCount t n) }.setPc p pc) j t' q =
            s.counted j t' q := by
        intro q
        by_cases hq : q = p
        · subst hq
          exact hcounted j t' hjt
        · simp [State.counted, hq]
      simp only [hall, ← h.counts j t', State.setPc_readers, hget]
      split
      · rename_i hj
        subst hj
        rw [ReadCount.count_setCount, if_neg fun ht => hjt ⟨rfl, ht⟩]
      · rfl
  · intro q j
    refine ⟨(h.cache q j).free, fun hne => ?_⟩
    obtain ⟨hex, c1, c2, c3⟩ := (h.cache q j).active hne
    obtain ⟨s1, s2, s3⟩ := hsame j
    exact ⟨hex, c1.trans s1.symm, c2.trans s2.symm, c3.trans s3.symm⟩
  · intro q
    rw [State.setPc_pc]
    split
    · rename_i hq
      subst hq
      exact (hpcs q pc hpc).congr rfl rfl
    · exact (hpcs q _ (h.pcs q)).congr rfl rfl

theorem Inv.shared (h : Inv s) {type : LockType} {pick : Option VersionID} {lock : ReadLockInfo}
    {readers : VersionList} (hpc : s.pc p = .shared type pick)
    (hgrab : s.readers.grabShared type pick = .ok (lock, readers)) :
    Inv ({ s with readers := readers }.setPc p (.record lock)) := by
  obtain ⟨hidx, hpick, hcase, hlock, rfl⟩ := VersionList.grabShared_ok hgrab
  have hok := h.pcs p
  rw [hpc] at hok
  have hversion : (s.readers.get lock.readerIdx).version ≠ 0 := by
    rcases hcase with hn | ⟨t, ht⟩
    · rw [hn]
      exact h.newest_active
    · intro h0
      have := h.free _ h0 t
      omega
  have htype : lock.type = type := by rw [hlock]
  -- the process has no lock of this type on the entry
  have hzero : (s.cache p lock.readerIdx).count type = 0 := by
    rw [hidx]
    cases pick with
    | none => exact hok
    | some v =>
      rcases hok with h0 | ⟨hactive, hne⟩
      · exact h0
      · obtain ⟨-, hsame, -⟩ := (h.cache p v.index).active hactive
        exact absurd (hsame.trans (hpick v rfl).symm) hne
  have hnot : s.counted lock.readerIdx type p = false := by
    simp [State.counted, hzero, hpc, Pc.between]
  refine h.onList (VersionList.lt_of_active hversion) hversion ?_ ?_ ?_
  · rw [h.counts]
    refine (card_counted_succ s _ (p := p) (fun q hq => ?_) hnot ?_).symm
    · simp [State.counted, hq]
    · simp [State.counted, Pc.between, isLockOf, htype]
  · intro j t' hjt
    simp only [State.counted, State.setPc_pc, if_true, hpc, Pc.between, isLockOf, Option.any_some,
      Option.any_none, State.setPc_cache, htype]
    by_cases hj : lock.readerIdx = j
    · have ht : type ≠ t' := fun he => hjt ⟨hj.symm, he.symm⟩
      simp [ht]
    · simp [hj]
  · refine ⟨by rw [htype]; exact hzero, ?_, ?_⟩
    · rw [hlock]
      exact ⟨rfl, rfl, rfl⟩
    · rw [hlock]
      exact hversion

theorem Inv.releaseShared (h : Inv s) {lock : ReadLockInfo} (hpc : s.pc p = .releaseShared lock) :
    Inv ({ s with readers := s.readers.releaseShared lock }.setPc p .idle) := by
  have hok := h.pcs p
  rw [hpc] at hok
  obtain ⟨hzero, hmatch, hv⟩ := hok
  have hversion : (s.readers.get lock.readerIdx).version ≠ 0 := hmatch.version ▸ hv
  have hbetween : (s.pc p).between = some lock := by rw [hpc]; rfl
  have hpos := h.count_pos (counted_of_between hbetween)
  refine h.onList (VersionList.lt_of_active hversion) hversion ?_ ?_ trivial
  · rw [countDown_of_pos hpos, h.counts]
    have hsucc := card_counted_succ
      ({ s with readers := s.readers.set lock.readerIdx ((s.readers.get lock.readerIdx).setCount
        lock.type (countDown ((s.readers.get lock.readerIdx).count lock.type))) }.setPc p .idle) s
      (p := p) (fun q hq => by simp [State.counted, hq]) (by simp [State.counted, hzero, Pc.between])
      (counted_of_between hbetween)
    rw [countDown_of_pos hpos, h.counts] at hsucc
    omega
  · intro j t' hjt
    simp only [State.counted, State.setPc_pc, if_true, hpc, Pc.between, isLockOf, Option.any_some,
      Option.any_none, State.setPc_cache]
    by_cases hj : lock.readerIdx = j
    · have ht : lock.type ≠ t' := fun he => hjt ⟨hj.symm, he.symm⟩
      simp [ht]
    · simp [hj]

omit [DecidableEq P] in
theorem Inv.addVersion (h : Inv s) {topRef fileSize version : Nat} (hversion : version ≠ 0) :
    Inv { s with
      readers := s.readers.addVersion topRef fileSize version
      added := ⟨(s.readers.addVersion topRef fileSize version).newest, version, topRef, fileSize⟩
        :: s.added } := by
  obtain ⟨i, hfree, hlt, hnewest, halloc, hget⟩ :=
    VersionList.addVersion_spec h.allocating topRef fileSize version
  generalize s.readers.addVersion topRef fileSize version = readers at *
  subst hnewest
  -- nobody has a lock on the entry that is filled
  have hcache : ∀ q, (s.cache q readers.newest).version = 0 := by
    intro q
    refine Classical.byContradiction fun hne => ?_
    exact (h.shared_active hne).1 hfree
  have hother : ∀ {j}, (s.readers.get j).version ≠ 0 → readers.get j = s.readers.get j := by
    intro j hj
    rw [hget, if_neg]
    rintro rfl
    exact hj hfree
  have hcounts : ∀ j t, (readers.get j).count t = (s.readers.get j).count t := by
    intro j t
    rw [hget]
    split
    · rename_i hj
      subst hj
      cases t <;> rfl
    · rfl
  refine { held_count := h.held_count, held_match := h.held_match, allocating := halloc,
           newest_active := ?_, newest_added := rfl, free := ?_, stored := ?_, counts := ?_,
           cache := ?_, pcs := ?_ }
  · rw [hget, if_pos rfl]
    exact hversion
  · intro j hj t
    rw [hcounts]
    by_cases hjn : j = readers.newest
    · rw [hjn]
      exact h.free _ hfree t
    · rw [hget, if_neg hjn] at hj
      exact h.free j hj t
  · intro j hj
    by_cases hjn : j = readers.newest
    · subst hjn
      rw [hget, if_pos rfl]
      exact List.find?_cons_of_pos (by simp)
    · rw [hget, if_neg hjn] at hj ⊢
      exact (List.find?_cons_of_neg (by simpa using Ne.symm hjn)).trans (h.stored j hj)
  · intro j t
    rw [hcounts]
    exact h.counts j t
  · intro q j
    refine ⟨(h.cache q j).free, fun hne => ?_⟩
    rw [hother (h.shared_active hne).1]
    exact (h.cache q j).active hne
  · intro q
    have hq := h.pcs q
    show State.PcOk _ q (s.pc q)
    cases hpc : s.pc q with
    | idle => trivial
    | tryLocal type pick index =>
      rw [hpc] at hq
      cases pick with
      | some v => exact hq
      | none => exact .inr ((h.cache q readers.newest).free (hcache q))
    | shared type pick =>
      rw [hpc] at hq
      cases pick with
      | some v => exact hq
      | none => exact (h.cache q readers.newest).free (hcache q) type
    | record lock | releaseShared lock =>
      rw [hpc] at hq
      obtain ⟨h0, hmatch, hv⟩ := hq
      refine ⟨h0, ?_, hv⟩
      rw [hother (hmatch.version ▸ hv)]
      exact hmatch

omit [DecidableEq P] in
theorem Inv.cleanup (h : Inv s) {lock : ReadLockInfo} (hlock : lock ∈ s.held p)
    (hidx : lock.readerIdx = s.readers.newest) :
    Inv { s with readers := s.readers.purgeVersions.1 } := by
  have hcases := VersionList.purge_cases h.allocating
  -- a locked entry is left as it is
  have hkeep : ∀ {i t}, 0 < (s.readers.get i).count t →
      s.readers.purgeVersions.1.get i = s.readers.get i := by
    intro i t ht
    rcases hcases i with heq | ⟨-, -, hzero⟩
    · exact heq
    · have := hzero t
      omega
  have hcounts : ∀ i t, (s.readers.purgeVersions.1.get i).count t = (s.readers.get i).count t := by
    intro i t
    rcases hcases i with heq | ⟨heq, -, hzero⟩
    · rw [heq]
    · rw [heq, hzero t, ReadCount.count_free]
  have hnewest : s.readers.purgeVersions.1.get s.readers.newest =
      s.readers.get s.readers.newest := by
    obtain ⟨hpos, -, -⟩ := h.held_entry hlock
    have := h.count_pos (counted_of_cache hpos)
    rw [hidx] at this
    exact hkeep this
  refine { held_count := h.held_count, held_match := h.held_match, allocating := h.allocating,
           newest_active := ?_, newest_added := h.newest_added, free := ?_, stored := ?_,
           counts := ?_, cache := ?_, pcs := ?_ }
  · show (s.readers.purgeVersions.1.get s.readers.newest).version ≠ 0
    rw [hnewest]
    exact h.newest_active
  · intro i hi t
    rcases hcases i with heq | ⟨heq, -, -⟩
    · rw [heq] at hi ⊢
      exact h.free i hi t
    · rw [heq, ReadCount.count_free]
  · intro i hi
    rcases hcases i with heq | ⟨heq, -, -⟩
    · rw [heq] at hi ⊢
      exact h.stored i hi
    · rw [heq] at hi
      exact absurd rfl hi
  · intro i t
    rw [hcounts]
    exact h.counts i t
  · intro q i
    refine ⟨(h.cache q i).free, fun hne => ?_⟩
    obtain ⟨-, t, ht⟩ := h.shared_active hne
    rw [hkeep ht]
    exact (h.cache q i).active hne
  · intro q
    have hq := h.pcs q
    show State.PcOk _ q (s.pc q)
    cases hpc : s.pc q with
    | idle => trivial
    | tryLocal type pick index =>
      rw [hpc] at hq
      cases pick <;> exact hq
    | shared type pick =>
      rw [hpc] at hq
      cases pick <;> exact hq
    | record l | releaseShared l =>
      rw [hpc] at hq
      obtain ⟨h0, hmatch, hv⟩ := hq
      have hpos := h.count_pos (counted_of_between (show (s.pc q).between = some l by rw [hpc]; rfl))
      refine ⟨h0, ?_, hv⟩
      rw [hkeep hpos]
      exact hmatch

/-! ## Every run -/

omit [DecidableEq P] in
theorem Initial.inv (h : Initial s) : Inv s := by
  obtain ⟨l, topRef, fileSize, version, hlen, hversion, hreaders, hadded⟩ := h.readers
  have hget : ∀ i, s.readers.get i = if i = 0 then
      { (l.get 0).deactivate with version := version, currentTop := topRef, filesize := fileSize }
      else (l.get i).deactivate := by
    have hmap : ∀ i, VersionList.get { l with data := l.data.map ReadCount.deactivate } i =
        (l.get i).deactivate := by
      intro i
      simp only [VersionList.get, List.getD_eq_getElem?_getD, List.getElem?_map]
      cases l.data[i]? <;> rfl
    intro i
    rw [hreaders, VersionList.initVersioning, VersionList.get_fill _ _ _ _ (by simpa using hlen),
      hmap, hmap]
  have hnewest : s.readers.newest = 0 := by rw [hreaders]; rfl
  have hzero : ∀ i t, (s.readers.get i).count t = 0 := by
    intro i t
    rw [hget]
    split
    · cases t <;> rfl
    · exact ReadCount.count_deactivate _ t
  have hcached : ∀ p i t, (s.cache p i).count t = 0 := by
    intro p i t
    rw [h.cache]
    exact ReadCount.count_default t
  refine { allocating := by rw [hreaders]; rfl, newest_active := ?_, newest_added := ?_,
           free := fun i _ t => hzero i t, stored := ?_, counts := ?_, cache := ?_,
           held_count := ?_, held_match := ?_, pcs := ?_ }
  · rw [hnewest, hget, if_pos rfl]
    exact hversion
  · rw [hadded, hnewest]
    rfl
  · intro i hi
    rw [hget] at hi ⊢
    split at hi
    · rename_i h0
      subst h0
      rw [State.stored, hadded]
      rfl
    · exact absurd rfl hi
  · intro i t
    rw [hzero]
    refine (Finset.card_eq_zero.mpr (Finset.filter_eq_empty_iff.mpr fun q _ => ?_)).symm
    simp [State.counted, hcached, h.pc, Pc.between]
  · intro q i
    exact ⟨fun _ t => hcached q i t, fun hne => absurd (by rw [h.cache]) hne⟩
  · intro q i t
    rw [hcached, h.held]
    rfl
  · intro q lock hlock
    rw [h.held] at hlock
    cases hlock
  · intro q
    rw [h.pc]
    trivial

theorem Step.inv {s' : State P} (hstep : Step s s') (h : Inv s) : Inv s' := by
  cases hstep with
  | start type pick hpc => exact h.start type pick hpc
  | localHit hpc hhit => exact h.localHit hpc hhit
  | localMiss hpc hmiss => exact h.localMiss hpc hmiss
  | shared hpc hgrab => exact h.shared hpc hgrab
  | badVersion hpc _ => exact h.move (by rw [hpc]; rfl) rfl trivial
  | record hpc => exact h.record hpc
  | release hpc hlock hrelease => exact h.release hpc hlock hrelease
  | releaseShared hpc => exact h.releaseShared hpc
  | addVersion topRef fileSize version _ hversion => exact h.addVersion (by omega)
  | cleanup _ hlock _ hidx => exact h.cleanup hlock hidx

theorem Reachable.inv (h : Reachable s) : Inv s := by
  induction h with
  | initial hinit => exact hinit.inv
  | step _ hstep ih => exact hstep.inv ih

/-- The newest version is the largest, and no version has two entries. -/
structure VersionList.Ordered (l : VersionList) : Prop where
  le_newest : ∀ i, (l.get i).version ≤ (l.get l.newest).version
  unique : ∀ i j, (l.get i).version = (l.get j).version → (l.get i).version ≠ 0 → i = j

omit [DecidableEq P] [Fintype P] in
theorem VersionList.Ordered.congr {l l' : VersionList} (h : l.Ordered)
    (hversion : ∀ i, (l'.get i).version = (l.get i).version) (hnewest : l'.newest = l.newest) :
    l'.Ordered := by
  refine ⟨fun i => ?_, fun i j hij hne => ?_⟩
  · rw [hnewest, hversion, hversion]
    exact h.le_newest i
  · rw [hversion, hversion] at hij
    rw [hversion] at hne
    exact h.unique i j hij hne

omit [DecidableEq P] [Fintype P] in
theorem VersionList.version_setCount_get (l : VersionList) (i j : Nat) (t : LockType) (n : Nat) :
    ((l.set i ((l.get i).setCount t n)).get j).version = (l.get j).version := by
  by_cases hlt : i < l.data.length
  · rw [VersionList.get_set l _ hlt]
    split
    · rename_i hj
      rw [hj, ReadCount.version_setCount]
    · rfl
  · rw [VersionList.set, List.set_eq_of_length_le (by omega)]

theorem Step.ordered {s' : State P} (hstep : Step s s') (hinv : Inv s) (h : s.readers.Ordered) :
    s'.readers.Ordered := by
  cases hstep with
  | start type pick hpc => exact h
  | localHit hpc hhit => exact h
  | localMiss hpc hmiss => exact h
  | badVersion hpc _ => exact h
  | record hpc => exact h
  | release hpc hlock hrelease => exact h
  | shared hpc hgrab =>
    obtain ⟨-, -, -, -, rfl⟩ := VersionList.grabShared_ok hgrab
    exact h.congr (VersionList.version_setCount_get _ _ · _ _) rfl
  | releaseShared hpc => exact h.congr (VersionList.version_setCount_get _ _ · _ _) rfl
  | addVersion topRef fileSize version _ hversion =>
    obtain ⟨i, -, -, hnewest, -, hget⟩ :=
      VersionList.addVersion_spec hinv.allocating topRef fileSize version
    show (s.readers.addVersion topRef fileSize version).Ordered
    generalize s.readers.addVersion topRef fileSize version = readers at *
    subst hnewest
    have hle : ∀ j, j ≠ readers.newest → (readers.get j).version < version := by
      intro j hj
      rw [hget, if_neg hj]
      exact Nat.lt_of_le_of_lt (h.le_newest j) hversion
    have hnew : (readers.get readers.newest).version = version := by rw [hget, if_pos rfl]
    refine ⟨fun j => ?_, fun j k hjk hne => ?_⟩
    · by_cases hj : j = readers.newest
      · rw [hj]
      · rw [hnew]
        exact Nat.le_of_lt (hle j hj)
    · by_cases hj : j = readers.newest
      · by_cases hk : k = readers.newest
        · rw [hj, hk]
        · have := hle k hk
          rw [hj, hnew] at hjk
          omega
      · by_cases hk : k = readers.newest
        · have := hle j hj
          rw [hk, hnew] at hjk
          omega
        · rw [hget, hget, if_neg hj, if_neg hk] at hjk
          rw [hget, if_neg hj] at hne
          exact h.unique j k hjk hne
  | cleanup hpc hlock htype hidx =>
    have hcases := VersionList.purge_cases hinv.allocating
    have hnewest : (s.readers.purgeVersions.1.get s.readers.newest).version ≠ 0 :=
      (hinv.cleanup hlock hidx).newest_active
    have hsame : ∀ i, (s.readers.purgeVersions.1.get i).version ≠ 0 →
        (s.readers.purgeVersions.1.get i).version = (s.readers.get i).version := by
      intro i hi
      rcases hcases i with heq | ⟨heq, -, -⟩
      · rw [heq]
      · rw [heq] at hi
        exact absurd rfl hi
    refine ⟨fun i => ?_, fun i j hij hne => ?_⟩
    · by_cases hi : (s.readers.purgeVersions.1.get i).version = 0
      · exact hi ▸ Nat.zero_le _
      · show (s.readers.purgeVersions.1.get i).version ≤
          (s.readers.purgeVersions.1.get s.readers.newest).version
        rw [hsame i hi, hsame _ hnewest]
        exact h.le_newest i
    · refine h.unique i j ?_ ?_
      · rw [← hsame i hne, ← hsame j (hij ▸ hne)]
        exact hij
      · rw [← hsame i hne]
        exact hne

theorem Reachable.ordered (h : Reachable s) : s.readers.Ordered := by
  induction h with
  | initial hinit =>
    obtain ⟨l, topRef, fileSize, version, hlen, -, hreaders, -⟩ := hinit.readers
    have hzero : ∀ i, i ≠ 0 → (l.initVersioning topRef fileSize version).get i =
        (l.get i).deactivate := by
      intro i hi
      rw [VersionList.initVersioning, VersionList.get_fill _ _ _ _ (by simpa using hlen), if_neg hi]
      simp only [VersionList.get, List.getD_eq_getElem?_getD, List.getElem?_map]
      cases l.data[i]? <;> rfl
    rw [hreaders]
    refine ⟨fun i => ?_, fun i j hij hne => ?_⟩
    · by_cases hi : i = 0
      · rw [hi]
        exact Nat.le_refl _
      · rw [hzero i hi]
        exact Nat.zero_le _
    · have hpos : ∀ k, ((l.initVersioning topRef fileSize version).get k).version ≠ 0 → k = 0 :=
        fun k hk => Classical.byContradiction fun hk0 => hk (by rw [hzero k hk0]; rfl)
      rw [hpos i hne, hpos j (hij ▸ hne)]
  | step hr hstep ih => exact hstep.ordered hr.inv ih

/-- **Locked versions stay.**  In every state that processes sharing a version list can reach:

* a lock that is held reports the version, top ref and file size that `add_version` stored last in
  its entry, and the entry still has them: it was neither purged nor used again;
* the newest entry has the version that was added last;
* the shared count of an entry and a lock type is the number of processes whose own count is
  positive, apart from processes between the two halves of grabbing or releasing such a lock, which
  are counted as well. -/
theorem locked_versions_stay (h : Reachable s) :
    (∀ p, ∀ lock ∈ s.held p,
      s.stored lock.readerIdx = some ⟨lock.readerIdx, lock.version, lock.topRef, lock.fileSize⟩ ∧
      (s.readers.get lock.readerIdx).version = lock.version ∧
      (s.readers.get lock.readerIdx).currentTop = lock.topRef ∧
      (s.readers.get lock.readerIdx).filesize = lock.fileSize ∧ lock.version ≠ 0) ∧
    (s.readers.get s.readers.newest).version ≠ 0 ∧
    s.added.head? = some ⟨s.readers.newest, (s.readers.get s.readers.newest).version,
      (s.readers.get s.readers.newest).currentTop, (s.readers.get s.readers.newest).filesize⟩ ∧
    ∀ i t, (s.readers.get i).count t =
      (Finset.univ.filter fun p => 0 < (s.cache p i).count t).card +
      (Finset.univ.filter fun p => (s.pc p).between.any (isLockOf i t) = true).card := by
  have hinv := h.inv
  refine ⟨fun p lock hlock => ?_, hinv.newest_active, ?_, fun i t => ?_⟩
  · obtain ⟨-, hactive, hmatch⟩ := hinv.held_entry hlock
    have hshared := (hinv.shared_active hactive).1
    have hstored := hinv.stored _ hshared
    obtain ⟨m1, m2, m3⟩ := hmatch
    rw [← m1, ← m2, ← m3] at hstored
    exact ⟨hstored, m1.symm, m2.symm, m3.symm, m1 ▸ hshared⟩
  · have hstored := hinv.stored _ hinv.newest_active
    have hhead := hinv.newest_added
    cases hadded : s.added with
    | nil =>
      rw [hadded] at hhead
      cases hhead
    | cons a rest =>
      rw [hadded] at hhead
      have ha : a.index = s.readers.newest := by simpa using hhead
      rw [State.stored, hadded, List.find?_cons_of_pos (by simp [ha])] at hstored
      rw [List.head?_cons]
      exact hstored
  · rw [hinv.counts i t, ← Finset.card_union_of_disjoint]
    · congr 1
      ext q
      simp [State.counted, Nat.pos_iff_ne_zero]
    · refine Finset.disjoint_left.mpr fun q hq hq' => ?_
      simp only [Finset.mem_filter, Finset.mem_univ, true_and] at hq hq'
      have hok := hinv.pcs q
      cases hpc : s.pc q with
      | idle | tryLocal _ _ _ | shared _ _ =>
        rw [hpc] at hq'
        cases hq'
      | record lock | releaseShared lock =>
        rw [hpc] at hq' hok
        obtain ⟨h0, -, -⟩ := hok
        simp only [Pc.between, Option.any_some, isLockOf, Bool.and_eq_true, beq_iff_eq] at hq'
        rw [hq'.1, hq'.2] at h0
        omega

end Inv

/-! ### A small run -/

namespace Small

/-- Two processes and one version. -/
def initial : State Bool where
  readers := VersionList.initVersioning ⟨List.replicate 32 {}, 0, 0⟩ 64 4096 1
  cache := fun _ _ => {}
  pc := fun _ => .idle
  held := fun _ => []
  added := [⟨0, 1, 64, 4096⟩]

def lock : ReadLockInfo := ⟨1, 0, 64, 4096, .live⟩

def waiting : State Bool := (initial.setPc false (.tryLocal .live none 0)).setPc false (.shared .live none)

def counted : State Bool :=
  { waiting with readers := initial.readers.set 0 ((initial.readers.get 0).setCount .live 1) }.setPc
    false (.record lock)

/-- Process `false` has grabbed the newest version. -/
def grabbed : State Bool :=
  ((counted.setCache false lock.readerIdx (recordLocal (counted.cache false lock.readerIdx) lock)).setHeld false
    (lock :: counted.held false)).setPc false .idle

theorem grabbed_reachable : Reachable grabbed := by
  have h0 : Reachable initial := .initial
    ⟨⟨_, 64, 4096, 1, by decide, by decide, rfl, rfl⟩, fun _ _ => rfl, fun _ => rfl, fun _ => rfl⟩
  have h1 : Reachable (initial.setPc false (.tryLocal .live none 0)) := .step h0 (.start .live none rfl)
  have h2 : Reachable waiting := .step h1 (.localMiss rfl (by decide))
  have h3 : Reachable counted := .step h2 (.shared rfl (by decide) (by decide))
  exact .step h3 (.record rfl)

def newLock : ReadLockInfo := ⟨2, 1, 128, 8192, .live⟩

end Small

/-- Another process adds version 2, locks it and purges the list; version 1 stays. -/
theorem locked_versions_stay_small : ∃ s : State Bool, Reachable s ∧ Small.lock ∈ s.held false ∧
    s.held true = [Small.newLock] ∧ s.added = [⟨1, 2, 128, 8192⟩, ⟨0, 1, 64, 4096⟩] ∧
    (s.readers.get 0).version = 1 ∧ (s.readers.get 0).currentTop = 64 ∧
    (s.readers.get 0).count .live = (Finset.univ.filter fun p => 0 < (s.cache p 0).count .live).card +
      (Finset.univ.filter fun p => (s.pc p).between.any (isLockOf 0 .live) = true).card := by
  have h1 := Reachable.step Small.grabbed_reachable (.addVersion (p := true) 128 8192 2 rfl (by decide))
  have h2 := Reachable.step h1 (.start (p := true) .live none rfl)
  have h3 := Reachable.step h2 (.localMiss (p := true) rfl (by decide))
  have h4 := Reachable.step h3 (.shared (p := true) rfl rfl (by decide))
  have h5 := Reachable.step h4 (.record (p := true) rfl)
  have h6 := Reachable.step h5 (@Step.cleanup Bool _ _ true Small.newLock rfl (by decide) rfl rfl)
  have h := locked_versions_stay h6
  exact ⟨_, h6, by decide, by decide, by decide, (h.1 false Small.lock (by decide)).2.1,
    (h.1 false Small.lock (by decide)).2.2.1, h.2.2.2 0 .live⟩

end Llbt.Versions
