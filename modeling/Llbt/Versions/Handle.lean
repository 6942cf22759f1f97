import Llbt.Versions.Sharing

/-!
# The locks of one handle

`DB` keeps its own list of the read locks it has, so that `close` can release those that are still
open.  `do_release_read_lock` takes the first entry of the list with the version of the lock,
whatever its type, and moves the last entry over it.

* `Run` — a handle among other processes, with a condition on its releases;
* `Run.found` — a release always finds an entry of the version;
* `locks_match` — if the entry found always has the type of the lock, the list is the locks held, and
  `releaseAllReadLocks` gives back exactly what was grabbed;
* `mixed_types_leak` — with two types of lock on one version, `close` counts one lock below zero and
  leaks the other.
-/

set_option autoImplicit false

namespace Llbt.Versions

/-- `m_local_locks_held` and `m_transaction_count`. -/
structure Handle where
  locks : List ReadLockInfo := []
  transactionCount : Int := 0
  deriving DecidableEq, Repr

/-- `locks[j] = locks.back(); locks.pop_back()`. -/
def moveLastOver (locks : List ReadLockInfo) (j : Nat) : List ReadLockInfo :=
  match locks.getLast? with
  | none => locks
  | some back => (locks.set j back).dropLast

/-- The search of `do_release_read_lock`. -/
def removeVersion (locks : List ReadLockInfo) (version : Nat) : Option (List ReadLockInfo) :=
  let j := locks.findIdx (·.version == version)
  if j = locks.length then none else some (moveLastOver locks j)

/-- The entry that the search finds. -/
def foundVersion (locks : List ReadLockInfo) (version : Nat) : Option ReadLockInfo :=
  locks.find? (·.version == version)

/-- The entry found for a lock has its type. -/
def FoundAgrees (locks : List ReadLockInfo) (lock : ReadLockInfo) : Prop :=
  (foundVersion locks lock.version).map (·.type) = some lock.type

theorem moveLastOver_perm {locks : List ReadLockInfo} {j : Nat} (h : j < locks.length) :
    (locks[j] :: moveLastOver locks j).Perm locks := by
  induction locks using List.reverseRecOn with
  | nil => simp at h
  | append_singleton locks back _ =>
    have hmove : moveLastOver (locks ++ [back]) j = ((locks ++ [back]).set j back).dropLast := by
      simp [moveLastOver]
    rw [hmove]
    by_cases hj : j = locks.length
    · -- the last entry goes
      subst hj
      rw [List.getElem_concat_length rfl, List.set_append_right _ _ (Nat.le_refl _), Nat.sub_self,
        List.set_cons_zero, List.dropLast_concat]
      exact (List.perm_append_singleton back locks).symm
    · have hlt : j < locks.length := by
        simp only [List.length_append, List.length_singleton] at h
        omega
      rw [List.getElem_append_left hlt, List.set_append_left _ _ hlt, List.dropLast_concat]
      refine ((List.set_perm_cons_eraseIdx hlt back).cons _).trans ?_
      refine (List.Perm.swap ..).trans ?_
      refine ((List.getElem_cons_eraseIdx_perm hlt).cons _).trans ?_
      exact (List.perm_append_singleton back locks).symm

theorem removeVersion_some {locks locks' : List ReadLockInfo} {version : Nat}
    (h : removeVersion locks version = some locks') :
    ∃ found, foundVersion locks version = some found ∧ found.version = version ∧
      (found :: locks').Perm locks := by
  unfold removeVersion at h
  dsimp only at h
  split at h
  · cases h
  rename_i hne
  cases h
  have hlt : locks.findIdx (·.version == version) < locks.length :=
    Nat.lt_of_le_of_ne List.findIdx_le_length hne
  refine ⟨locks[locks.findIdx (·.version == version)], ?_, ?_, moveLastOver_perm hlt⟩
  · rw [foundVersion, List.find?_eq_getElem?_findIdx, List.getElem?_eq_getElem hlt]
  · simpa using List.findIdx_getElem (w := hlt)

theorem removeVersion_none {locks : List ReadLockInfo} {version : Nat}
    (h : removeVersion locks version = none) : ∀ lock ∈ locks, lock.version ≠ version := by
  unfold removeVersion at h
  dsimp only at h
  split at h
  · rename_i hlen
    intro lock hlock
    simpa using List.findIdx_eq_length.mp hlen lock hlock
  · cases h

/-! ## Runs -/

variable {P : Type} [DecidableEq P]

/-- A handle of process `p` among others.  `ok` is a condition on its releases. -/
inductive Run (p : P) (ok : List ReadLockInfo → ReadLockInfo → Prop) : State P → Handle → Prop
  | opened {s : State P} : Reachable s → s.held p = [] → Run p ok s {}
  /-- Another process moves, or an operation of this one goes on. -/
  | quiet {s s' : State P} {h : Handle} : Run p ok s h → Step s s' → s'.held p = s.held p →
    Run p ok s' h
  /-- `DB::grab_read_lock` returns. -/
  | grabbed {s s' : State P} {h : Handle} {lock : ReadLockInfo} : Run p ok s h → Step s s' →
    s'.held p = lock :: s.held p →
    Run p ok s' ⟨h.locks ++ [lock], h.transactionCount + 1⟩
  /-- `DB::do_release_read_lock` has found an entry and goes on to the version list. -/
  | released {s s' : State P} {h : Handle} {lock : ReadLockInfo} {locks : List ReadLockInfo} :
    Run p ok s h → lock ∈ s.held p → ok h.locks lock →
    removeVersion h.locks lock.version = some locks → Step s s' →
    s'.held p = (s.held p).erase lock →
    Run p ok s' ⟨locks, h.transactionCount - 1⟩

section Run

variable [Fintype P] {p : P} {ok : List ReadLockInfo → ReadLockInfo → Prop} {s : State P}
  {h : Handle}

omit [Fintype P] in
theorem Run.reachable (hrun : Run p ok s h) : Reachable s := by
  induction hrun with
  | opened hs _ => exact hs
  | quiet _ hstep _ ih => exact ih.step hstep
  | grabbed _ hstep _ ih => exact ih.step hstep
  | released _ _ _ _ hstep _ ih => exact ih.step hstep

omit [Fintype P] in
theorem Run.versions (hrun : Run p ok s h) :
    (h.locks.map (·.version)).Perm ((s.held p).map (·.version)) := by
  induction hrun with
  | opened _ hheld => rw [hheld]
  | quiet _ _ hheld ih => rwa [hheld]
  | @grabbed s s' h lock _ _ hheld ih =>
    rw [hheld, List.map_append, List.map_cons]
    exact (List.perm_append_singleton _ _).trans (ih.cons _)
  | @released s s' h lock locks _ hmem _ hremove _ hheld ih =>
    obtain ⟨found, -, hversion, hperm⟩ := removeVersion_some hremove
    have hheldPerm := (List.perm_cons_erase hmem).map (·.version)
    have hlocks := hperm.map (·.version)
    rw [hheld]
    rw [List.map_cons] at hheldPerm hlocks
    rw [hversion] at hlocks
    exact (hlocks.trans (ih.trans hheldPerm)).cons_inv

omit [Fintype P] in
theorem Run.found (hrun : Run p ok s h) {lock : ReadLockInfo} (hlock : lock ∈ s.held p) :
    ∃ locks, removeVersion h.locks lock.version = some locks := by
  cases hremove : removeVersion h.locks lock.version with
  | some locks => exact ⟨locks, rfl⟩
  | none =>
    have hmem : lock.version ∈ h.locks.map (·.version) :=
      hrun.versions.mem_iff.mpr (List.mem_map_of_mem hlock)
    obtain ⟨l, hl, hversion⟩ := List.mem_map.mp hmem
    exact absurd hversion (removeVersion_none hremove l hl)

theorem lock_unique (hs : Reachable s) {l l' : ReadLockInfo} (hl : l ∈ s.held p)
    (hl' : l' ∈ s.held p) (hversion : l.version = l'.version) (htype : l.type = l'.type) :
    l = l' := by
  obtain ⟨-, hactive, m⟩ := hs.inv.held_entry hl
  obtain ⟨-, -, m'⟩ := hs.inv.held_entry hl'
  have hidx : l.readerIdx = l'.readerIdx := by
    refine hs.ordered.unique _ _ ?_ (hs.inv.shared_active hactive).1
    rw [← m.version, ← m'.version, hversion]
  cases l
  cases l'
  simp only at hidx hversion htype
  subst hidx hversion htype
  obtain ⟨-, h2, h3⟩ := m
  obtain ⟨-, h2', h3'⟩ := m'
  simp only at h2 h3 h2' h3'
  rw [h2, h3, h2', h3']

/-! ## Closing -/

/-- `VersionManager::release_read_lock`, both halves at once. -/
def releaseReadLock (p : P) (s : State P) (lock : ReadLockInfo) : State P :=
  let released := releaseLocal (s.cache p lock.readerIdx) lock
  let s := (s.setCache p lock.readerIdx released.1).setHeld p ((s.held p).erase lock)
  if released.2 then { s with readers := s.readers.releaseShared lock } else s

def releaseAllReadLocks (p : P) (s : State P) (locks : List ReadLockInfo) : State P :=
  locks.foldl (releaseReadLock p) s

/-- No count is at zero when `release_all_read_locks` counts it down. -/
def NoUnderflow (p : P) : State P → List ReadLockInfo → Prop
  | _, [] => True
  | s, lock :: locks => 0 < (s.cache p lock.readerIdx).count lock.type ∧
      ((releaseLocal (s.cache p lock.readerIdx) lock).2 = true →
        0 < (s.readers.get lock.readerIdx).count lock.type) ∧
      NoUnderflow p (releaseReadLock p s lock) locks

omit [Fintype P] in
theorem releaseReadLock_reachable (hs : Reachable s) (hpc : s.pc p = .idle) {lock : ReadLockInfo}
    (hlock : lock ∈ s.held p) :
    Reachable (releaseReadLock p s lock) ∧ (releaseReadLock p s lock).pc = s.pc ∧
      (releaseReadLock p s lock).held p = (s.held p).erase lock ∧
      ∀ q, q ≠ p → (releaseReadLock p s lock).cache q = s.cache q := by
  have hstep := hs.step (Step.release hpc hlock (Prod.mk.eta.symm :
    releaseLocal (s.cache p lock.readerIdx) lock = (_, _)))
  have hcache : ∀ (r : ReadCount) q, q ≠ p → (s.setCache p lock.readerIdx r).cache q = s.cache q := by
    intro r q hq
    funext j
    simp [hq]
  unfold releaseReadLock
  dsimp only
  split
  · rename_i hlast
    rw [hlast, if_pos rfl] at hstep
    have hgap : ∀ s : State P, (s.setPc p (.releaseShared lock)).pc p = .releaseShared lock :=
      fun s => by rw [State.setPc_pc, if_pos rfl]
    have hend := hstep.step (Step.releaseShared (hgap _))
    have heq : s.pc = Function.update (Function.update s.pc p (.releaseShared lock)) p .idle := by
      rw [Function.update_idem, ← hpc, Function.update_eq_self]
    refine ⟨?_, rfl, by simp, fun q hq => hcache _ q hq⟩
    simp only [State.setPc, State.setHeld, State.setCache, ← heq] at hend
    exact hend
  · rename_i hlast
    rw [if_neg hlast] at hstep
    refine ⟨?_, rfl, by simp, fun q hq => hcache _ q hq⟩
    have heq : Function.update s.pc p .idle = s.pc := by rw [← hpc, Function.update_eq_self]
    simp only [State.setPc, State.setHeld, State.setCache, heq] at hstep
    exact hstep

theorem releaseAll_spec {locks : List ReadLockInfo} (hs : Reachable s) (hpc : s.pc p = .idle)
    (hperm : locks.Perm (s.held p)) :
    NoUnderflow p s locks ∧ Reachable (releaseAllReadLocks p s locks) ∧
      (releaseAllReadLocks p s locks).pc = s.pc ∧ (releaseAllReadLocks p s locks).held p = [] ∧
      ∀ q, q ≠ p → (releaseAllReadLocks p s locks).cache q = s.cache q := by
  induction locks generalizing s with
  | nil => exact ⟨trivial, hs, rfl, hperm.symm.eq_nil, fun _ _ => rfl⟩
  | cons lock locks ih =>
    have hmem : lock ∈ s.held p := hperm.subset (by simp)
    obtain ⟨hpos, hactive, -⟩ := hs.inv.held_entry hmem
    obtain ⟨hs', hpc', hheld', hcache'⟩ := releaseReadLock_reachable hs hpc hmem
    have hrest : locks.Perm ((releaseReadLock p s lock).held p) := by
      rw [hheld']
      exact (hperm.trans (List.perm_cons_erase hmem)).cons_inv
    obtain ⟨h1, h2, h3, h4, h5⟩ := ih hs' (by rw [hpc']; exact hpc) hrest
    refine ⟨⟨hpos, fun _ => hs.inv.count_pos (counted_of_cache hpos), h1⟩, h2, ?_, h4, ?_⟩
    · exact h3.trans hpc'
    · exact fun q hq => (h5 q hq).trans (hcache' q hq)

theorem not_counted (hs : Reachable s) (hpc : s.pc p = .idle) (hheld : s.held p = []) :
    (∀ i t, (s.cache p i).count t = 0) ∧ ∀ i t, s.counted i t p = false := by
  have hzero : ∀ i t, (s.cache p i).count t = 0 := by
    intro i t
    rw [hs.inv.held_count, hheld]
    rfl
  exact ⟨hzero, fun i t => by simp [State.counted, hzero, hpc, Pc.between]⟩

/-! ## The list of locks -/

/-- What the list of locks is compared by. -/
def ReadLockInfo.pair (lock : ReadLockInfo) : Nat × LockType := (lock.version, lock.type)

theorem Run.perm (hrun : Run p FoundAgrees s h) :
    h.locks.Perm (s.held p) ∧ h.transactionCount = h.locks.length := by
  induction hrun with
  | opened _ hheld => exact ⟨by rw [hheld], rfl⟩
  | quiet _ _ hheld ih => exact ⟨hheld ▸ ih.1, ih.2⟩
  | @grabbed s s' h lock _ _ hheld ih =>
    refine ⟨?_, ?_⟩
    · rw [hheld]
      exact (List.perm_append_singleton _ _).trans (ih.1.cons _)
    · simp [ih.2]
  | @released s s' h lock locks hrun hmem hok hremove _ hheld ih =>
    obtain ⟨found, hfound, hversion, hperm⟩ := removeVersion_some hremove
    unfold FoundAgrees at hok
    rw [hfound, Option.map_some] at hok
    have hfoundMem : found ∈ s.held p := ih.1.subset (hperm.subset (by simp))
    have heq : found = lock :=
      lock_unique hrun.reachable hfoundMem hmem hversion (Option.some.inj hok)
    subst heq
    refine ⟨?_, ?_⟩
    · rw [hheld]
      exact (hperm.trans (ih.1.trans (List.perm_cons_erase hmem))).cons_inv
    · have hlen := hperm.length_eq
      simp only [List.length_cons] at hlen
      simp only [ih.2]
      omega

theorem removeVersion_perm_iff {locks locks' held : List ReadLockInfo} {lock : ReadLockInfo}
    (hperm : locks.Perm held) (hlock : lock ∈ held)
    (hremove : removeVersion locks lock.version = some locks') :
    (locks'.map (·.pair)).Perm ((held.erase lock).map (·.pair)) ↔ FoundAgrees locks lock := by
  obtain ⟨found, hfound, hversion, hp⟩ := removeVersion_some hremove
  have h1 : (found.pair :: locks'.map (·.pair)).Perm (lock.pair :: (held.erase lock).map (·.pair)) :=
    (hp.trans (hperm.trans (List.perm_cons_erase hlock))).map ReadLockInfo.pair
  have hagrees : FoundAgrees locks lock ↔ found.pair = lock.pair := by
    unfold FoundAgrees
    rw [hfound]
    simp [ReadLockInfo.pair, hversion]
  rw [hagrees]
  constructor
  · intro h2
    have h3 := h1.trans (h2.symm.cons lock.pair)
    have h4 : (found.pair ::ₘ (locks'.map (·.pair) : Multiset (Nat × LockType))) =
        lock.pair ::ₘ (locks'.map (·.pair) : Multiset (Nat × LockType)) :=
      Multiset.coe_eq_coe.mpr h3
    exact (Multiset.cons_inj_left _).mp h4
  · intro heq
    rw [heq] at h1
    exact h1.cons_inv

/-- **The list of a handle is the locks it holds**, in every run whose releases find an entry of
the type of the lock, and `release_all_read_locks` then brings every count back: no count is at zero
when it is counted down, the handle's own counts end at zero, and the shared counts are again what
they were in any earlier state in which the handle had no lock and the other processes stood as they
stand now.  The condition is exact: a release keeps the list right exactly when the entry it finds
has the type of the lock. -/
theorem locks_match (hrun : Run p FoundAgrees s h) :
    (h.locks.map (·.pair)).Perm ((s.held p).map (·.pair)) ∧
    h.transactionCount = (s.held p).length ∧
    (∀ lock ∈ s.held p, ∃ locks, removeVersion h.locks lock.version = some locks ∧
      ((locks.map (·.pair)).Perm (((s.held p).erase lock).map (·.pair)) ↔
        FoundAgrees h.locks lock)) ∧
    (s.pc p = .idle → NoUnderflow p s h.locks ∧
      (∀ i t, ((releaseAllReadLocks p s h.locks).cache p i).count t = 0) ∧
      ∀ s₀ : State P, Reachable s₀ → s₀.pc p = .idle → s₀.held p = [] →
        (∀ q, q ≠ p → s₀.cache q = s.cache q ∧ s₀.pc q = s.pc q) →
        ∀ i t, ((releaseAllReadLocks p s h.locks).readers.get i).count t =
          (s₀.readers.get i).count t) := by
  obtain ⟨hperm, hcount⟩ := hrun.perm
  have hs := hrun.reachable
  refine ⟨hperm.map _, ?_, ?_, ?_⟩
  · rw [hcount, hperm.length_eq]
  · intro lock hlock
    obtain ⟨locks, hremove⟩ := hrun.found hlock
    exact ⟨locks, hremove, removeVersion_perm_iff hperm hlock hremove⟩
  · intro hpc
    obtain ⟨hno, hclosed, hpcs, hheld, hcache⟩ := releaseAll_spec hs hpc hperm
    obtain ⟨hzero, hnot⟩ := not_counted hclosed (by rw [hpcs]; exact hpc) hheld
    refine ⟨hno, hzero, ?_⟩
    intro s₀ hs₀ hpc₀ hheld₀ hothers i t
    obtain ⟨-, hnot₀⟩ := not_counted hs₀ hpc₀ hheld₀
    rw [hclosed.inv.counts, hs₀.inv.counts]
    congr 1
    ext q
    simp only [Finset.mem_filter, Finset.mem_univ, true_and]
    by_cases hq : q = p
    · subst hq
      rw [hnot, hnot₀]
    · obtain ⟨h1, h2⟩ := hothers q hq
      simp only [State.counted, hcache q hq, hpcs, h1, h2]

end Run

/-! ### Two types of lock on one version -/

namespace Small

theorem live_run (ok : List ReadLockInfo → ReadLockInfo → Prop) :
    Run false ok grabbed ⟨[lock], 1⟩ := by
  have h0 : Run false ok initial {} := .opened (.initial
    ⟨⟨_, 64, 4096, 1, by decide, by decide, rfl, rfl⟩, fun _ _ => rfl, fun _ => rfl, fun _ => rfl⟩) rfl
  have h1 : Run false ok (initial.setPc false (.tryLocal .live none 0)) {} :=
    .quiet h0 (.start .live none rfl) rfl
  have h2 : Run false ok waiting {} := .quiet h1 (.localMiss rfl (by decide)) rfl
  have h3 : Run false ok counted {} := .quiet h2 (.shared rfl (by decide) (by decide)) rfl
  exact .grabbed h3 (.record rfl) rfl

def frozenLock : ReadLockInfo := ⟨1, 0, 64, 4096, .frozen⟩

def waitingFrozen : State Bool :=
  (grabbed.setPc false (.tryLocal .frozen none 0)).setPc false (.shared .frozen none)

def countedFrozen : State Bool :=
  { waitingFrozen with
    readers := grabbed.readers.set 0 ((grabbed.readers.get 0).setCount .frozen 1) }.setPc
      false (.record frozenLock)

/-- It has grabbed a `Frozen` lock of the same version as well. -/
def both : State Bool :=
  ((countedFrozen.setCache false frozenLock.readerIdx
    (recordLocal (countedFrozen.cache false frozenLock.readerIdx) frozenLock)).setHeld false
      (frozenLock :: countedFrozen.held false)).setPc false .idle

def releasing : State Bool :=
  ((both.setCache false frozenLock.readerIdx
    (releaseLocal (both.cache false frozenLock.readerIdx) frozenLock).1).setHeld false
      ((both.held false).erase frozenLock)).setPc false (.releaseShared frozenLock)

/-- It has released the `Frozen` lock again. -/
def mixed : State Bool :=
  { releasing with readers := releasing.readers.releaseShared frozenLock }.setPc false .idle

theorem mixed_run : Run false (fun _ _ => True) mixed ⟨[frozenLock], 1⟩ := by
  have h1 : Run false (fun _ _ => True) (grabbed.setPc false (.tryLocal .frozen none 0))
      ⟨[lock], 1⟩ := .quiet (live_run _) (.start .frozen none rfl) rfl
  have h2 : Run false (fun _ _ => True) waitingFrozen ⟨[lock], 1⟩ :=
    .quiet h1 (.localMiss rfl (by decide)) rfl
  have h3 : Run false (fun _ _ => True) countedFrozen ⟨[lock], 1⟩ :=
    .quiet h2 (.shared rfl (by decide) (by decide)) rfl
  have h4 : Run false (fun _ _ => True) both ⟨[lock, frozenLock], 2⟩ :=
    .grabbed h3 (.record rfl) rfl
  have hmem : frozenLock ∈ both.held false := by decide
  have hstep : Step both releasing :=
    Step.release rfl hmem (Prod.mk.eta.symm : releaseLocal (both.cache false 0) frozenLock = (_, _))
  have h5 : Run false (fun _ _ => True) releasing ⟨[frozenLock], 1⟩ :=
    .released h4 hmem trivial (by decide) hstep rfl
  exact .quiet h5 (.releaseShared rfl) rfl

end Small

/-- A second lock of the version is grabbed and released again. -/
theorem locks_match_small : ∃ s, Run false FoundAgrees s ⟨[Small.lock], 1⟩ ∧ s.held false = [Small.lock] ∧
    NoUnderflow false s [Small.lock] ∧
    ((releaseAllReadLocks false s [Small.lock]).cache false 0).count .live = 0 := by
  have h1 := Run.quiet (Small.live_run FoundAgrees) (.start (p := false) .live none rfl) rfl
  have h2 : Run false FoundAgrees _ ⟨[Small.lock, Small.lock], 2⟩ :=
    .grabbed h1 (@Step.localHit Bool _ _ false .live none 0 _ _ rfl rfl (by decide)) rfl
  have h3 : Run false FoundAgrees _ ⟨[Small.lock], 1⟩ :=
    .released h2 (List.mem_cons_self : Small.lock ∈ _) rfl rfl
      (@Step.release Bool _ _ false Small.lock _ _ rfl List.mem_cons_self rfl) rfl
  have h := (locks_match h3).2.2.2 rfl
  exact ⟨_, h3, rfl, h.1, h.2.1 0 .live⟩

/-- **Two types of lock on one version.**  After a `Live` and a `Frozen` lock of one version were
grabbed and the `Frozen` one was released, the list has the `Frozen` lock and the handle has the
`Live` one; `release_all_read_locks` then counts the `Frozen` count below zero and leaves the shared
`Live` count up, which was zero before the grab. -/
theorem mixed_types_leak :
    Run false (fun _ _ => True) Small.mixed ⟨[Small.frozenLock], 1⟩ ∧
    Small.mixed.pc false = .idle ∧ Small.mixed.held false = [Small.lock] ∧
    ¬ ([Small.frozenLock].map (·.pair)).Perm ((Small.mixed.held false).map (·.pair)) ∧
    ¬ NoUnderflow false Small.mixed [Small.frozenLock] ∧
    ((releaseAllReadLocks false Small.mixed [Small.frozenLock]).cache false 0).count .frozen = 2 ^ 32 - 1 ∧
    (Small.initial.readers.get 0).count .live = 0 ∧
    ((releaseAllReadLocks false Small.mixed [Small.frozenLock]).readers.get 0).count .live = 1 := by
  refine ⟨Small.mixed_run, rfl, rfl, by decide, ?_, by decide, by decide, by decide⟩
  rintro ⟨hpos, -⟩
  exact absurd hpos (by decide)

end Llbt.Versions
