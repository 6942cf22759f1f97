import Mathlib

/-!
# Group commit

`Store::write` parks a `Pending` on a queue.  A thread that finds no active leader leads the next
batch (`lead_batch`): it takes the write lock, drains up to 64 entries, runs their closures in one
transaction and commits it.  If a closure throws, the transaction is rolled back, the exception is
the outcome of that closure, and all other entries are run again in transactions of their own.

* `Move` — the steps of the calls, one for each part between two points where another thread can
  act; begin and commit can fail at any time;
* `PlainStep` — transactions made with `begin_write` by other threads or processes;
* `Placed` — where each call stands (`Reachable.placed`).
-/

set_option autoImplicit false

namespace Llbt.GroupCommit

/-! ## State -/

/-- Why a call throws: the exception of its closure, or a failure of begin or commit. -/
inductive Failure (E : Type) where
  | closure (e : E)
  | engine
  deriving DecidableEq, Repr

inductive Outcome (E : Type) where
  | version (v : Nat)
  | failed (f : Failure E)
  deriving DecidableEq, Repr

structure Pending (E : Type) where
  version : Nat := 0
  error : Option (Failure E) := none
  done : Bool := false

/-- The end of `write`. -/
def Pending.outcome {E : Type} (p : Pending E) : Outcome E :=
  match p.error with
  | some f => .failed f
  | none => .version p.version

/-- A committed transaction, or the part of one that a closure made. -/
structure Entry (T S : Type) where
  version : Nat
  call : Option T
  before : S
  after : S

/-- Who has the write lock of the engine. -/
inductive Writer where
  | leader
  | plain
  deriving DecidableEq, Repr

/-- How far the leader has come in `lead_batch`. -/
inductive Phase (T S E : Type) where
  | entered
  | beginFailed
  | begun
  /-- `todo` is still to run; `ran` are the closures that ran, with the state before and after. -/
  | running (batch todo : List T) (ran : List (T × S × S)) (cur : S)
  /-- The closure with index `thrower` has thrown `e`. -/
  | thrown (batch : List T) (thrower : Nat) (e : E)
  /-- Entry `i` is the next to be run alone. -/
  | rerun (batch : List T) (thrower : Nat) (e : E) (i : Nat)
  | rerunning (batch : List T) (thrower : Nat) (e : E) (i : Nat) (t : T)
  | rerunRan (batch : List T) (thrower : Nat) (e : E) (i : Nat) (t : T) (cur : S)
  /-- Before `finish`, which gives `result` to all entries of the batch. -/
  | finishing (batch : List T) (result : Option (Outcome E))
  | finished

/-- A call that was not made yet, is inside `write`, or has returned or thrown. -/
inductive Status (E : Type) where
  | idle
  | waiting
  | returned (o : Outcome E)

/-- `leader` stands for `leader_active` and the frame of the leader. -/
structure State (T S E : Type) where
  status : T → Status E
  pending : T → Pending E
  queue : List T
  leader : Option (T × Phase T S E)
  writer : Option Writer
  store : S
  version : Nat
  history : List (Entry T S)

variable {T S E : Type} [DecidableEq T]

def maxBatch : Nat := 64

def Pending.finish (p : Pending E) (result : Option (Outcome E)) : Pending E :=
  match result with
  | none => { p with done := true }
  | some (.version v) => { p with version := v, done := true }
  | some (.failed f) => { p with error := some f, done := true }

namespace State

def setStatus (s : State T S E) (t : T) (st : Status E) : State T S E :=
  { s with status := Function.update s.status t st }

def setPhase (s : State T S E) (l : T) (ph : Phase T S E) : State T S E :=
  { s with leader := some (l, ph) }

def setError (s : State T S E) (t : T) (f : Failure E) : State T S E :=
  { s with pending := Function.update s.pending t { s.pending t with error := some f } }

def setVersion (s : State T S E) (t : T) (v : Nat) : State T S E :=
  { s with pending := Function.update s.pending t { s.pending t with version := v } }

/-- The `finish` of `lead_batch`. -/
def finish (s : State T S E) (batch : List T) (result : Option (Outcome E)) : State T S E :=
  { s with pending := fun t =>
      if t ∈ batch then (s.pending t).finish result else s.pending t }

/-- A transaction with the given parts becomes the newest version, and the lock is released. -/
def publish (s : State T S E) (parts : List (Option T × S × S)) (store : S) : State T S E :=
  { s with
    store := store
    version := s.version + 1
    history := s.history ++ parts.map fun (call, before, after) =>
      ⟨s.version + 1, call, before, after⟩
    writer := none }

def release (s : State T S E) : State T S E := { s with writer := none }

end State

/-! ## Steps -/

/-- `runs t s r`: the closure of call `t` can end with `r` on state `s`. -/
abbrev Closures (T S E : Type) := T → S → Except E S → Prop

/-- The steps of the calls of `write`.  Begin and commit fail only if the engine is `faulty`. -/
inductive Move (runs : Closures T S E) (faulty : Bool) : State T S E → State T S E → Prop
  /-- The entry is pushed on the queue. -/
  | call {s : State T S E} {t : T} : s.status t = .idle →
    Move runs faulty s { s.setStatus t .waiting with queue := s.queue ++ [t] }
  | lead {s : State T S E} {t : T} : s.status t = .waiting → (s.pending t).done = false →
    s.leader = none → Move runs faulty s (s.setPhase t .entered)
  | ret {s : State T S E} {t : T} : s.status t = .waiting → (s.pending t).done = true →
    (∀ ph, s.leader ≠ some (t, ph)) →
    Move runs faulty s (s.setStatus t (.returned (s.pending t).outcome))
  | beginWrite {s : State T S E} {l : T} : s.leader = some (l, .entered) → s.writer = none →
    Move runs faulty s { s.setPhase l .begun with writer := some .leader }
  | beginFails {s : State T S E} {l : T} : faulty = true → s.leader = some (l, .entered) →
    Move runs faulty s (s.setPhase l .beginFailed)
  | drainFailed {s : State T S E} {l : T} : s.leader = some (l, .beginFailed) →
    Move runs faulty s { s.setPhase l (.finishing (s.queue.take maxBatch) (some (.failed .engine))) with
      queue := s.queue.drop maxBatch }
  | drain {s : State T S E} {l : T} : s.leader = some (l, .begun) →
    Move runs faulty s { s.setPhase l (.running (s.queue.take maxBatch) (s.queue.take maxBatch) [] s.store)
      with queue := s.queue.drop maxBatch }
  | run {s : State T S E} {l t : T} {batch todo : List T} {ran : List (T × S × S)} {cur new : S} :
    s.leader = some (l, .running batch (t :: todo) ran cur) → runs t cur (.ok new) →
    Move runs faulty s (s.setPhase l (.running batch todo (ran ++ [(t, cur, new)]) new))
  | throws {s : State T S E} {l t : T} {batch todo : List T} {ran : List (T × S × S)} {cur : S}
      {e : E} :
    s.leader = some (l, .running batch (t :: todo) ran cur) → runs t cur (.error e) →
    Move runs faulty s (s.setPhase l (.thrown batch ran.length e))
  | commit {s : State T S E} {l : T} {batch : List T} {ran : List (T × S × S)} {cur : S} :
    s.leader = some (l, .running batch [] ran cur) →
    Move runs faulty s ((s.publish (ran.map fun (t, b, a) => (some t, b, a)) cur).setPhase l
      (.finishing batch (some (.version (s.version + 1)))))
  /-- A failing commit may have published the version or not. -/
  | commitFails {s : State T S E} {l : T} {batch : List T} {ran : List (T × S × S)} {cur : S}
      (published : Bool) : faulty = true →
    s.leader = some (l, .running batch [] ran cur) →
    Move runs faulty s ((if published then s.publish (ran.map fun (t, b, a) => (some t, b, a)) cur
      else s.release).setPhase l (.finishing batch (some (.failed .engine))))
  | rollback {s : State T S E} {l : T} {batch : List T} {thrower : Nat} {e : E} :
    s.leader = some (l, .thrown batch thrower e) →
    Move runs faulty s (s.release.setPhase l (if batch.length = 1
      then .finishing batch (some (.failed (.closure e))) else .rerun batch thrower e 0))
  | rerunThrower {s : State T S E} {l t : T} {batch : List T} {thrower : Nat} {e : E} :
    s.leader = some (l, .rerun batch thrower e thrower) → batch[thrower]? = some t →
    Move runs faulty s ((s.setError t (.closure e)).setPhase l (.rerun batch thrower e (thrower + 1)))
  | rerunBegin {s : State T S E} {l t : T} {batch : List T} {thrower i : Nat} {e : E} :
    s.leader = some (l, .rerun batch thrower e i) → batch[i]? = some t → i ≠ thrower →
    s.writer = none →
    Move runs faulty s { s.setPhase l (.rerunning batch thrower e i t) with writer := some .leader }
  | rerunBeginFails {s : State T S E} {l t : T} {batch : List T} {thrower i : Nat} {e : E} :
    faulty = true → s.leader = some (l, .rerun batch thrower e i) → batch[i]? = some t → i ≠ thrower →
    Move runs faulty s ((s.setError t .engine).setPhase l (.rerun batch thrower e (i + 1)))
  | rerunRun {s : State T S E} {l t : T} {batch : List T} {thrower i : Nat} {e : E} {new : S} :
    s.leader = some (l, .rerunning batch thrower e i t) → runs t s.store (.ok new) →
    Move runs faulty s (s.setPhase l (.rerunRan batch thrower e i t new))
  | rerunThrows {s : State T S E} {l t : T} {batch : List T} {thrower i : Nat} {e e' : E} :
    s.leader = some (l, .rerunning batch thrower e i t) → runs t s.store (.error e') →
    Move runs faulty s ((s.setError t (.closure e')).release.setPhase l (.rerun batch thrower e (i + 1)))
  | rerunCommit {s : State T S E} {l t : T} {batch : List T} {thrower i : Nat} {e : E} {cur : S} :
    s.leader = some (l, .rerunRan batch thrower e i t cur) →
    Move runs faulty s (((s.publish [(some t, s.store, cur)] cur).setVersion t (s.version + 1)).setPhase l
      (.rerun batch thrower e (i + 1)))
  | rerunCommitFails {s : State T S E} {l t : T} {batch : List T} {thrower i : Nat} {e : E} {cur : S}
      (published : Bool) : faulty = true →
    s.leader = some (l, .rerunRan batch thrower e i t cur) →
    Move runs faulty s (((if published then s.publish [(some t, s.store, cur)] cur
      else s.release).setError t .engine).setPhase l (.rerun batch thrower e (i + 1)))
  | rerunEnd {s : State T S E} {l : T} {batch : List T} {thrower : Nat} {e : E} :
    s.leader = some (l, .rerun batch thrower e batch.length) →
    Move runs faulty s (s.setPhase l (.finishing batch none))
  | finish {s : State T S E} {l : T} {batch : List T} {result : Option (Outcome E)} :
    s.leader = some (l, .finishing batch result) →
    Move runs faulty s ((s.finish batch result).setPhase l .finished)
  /-- `leader_active` becomes false and all waiting threads wake up. -/
  | stepDown {s : State T S E} {l : T} : s.leader = some (l, .finished) →
    Move runs faulty s { s with leader := none }

/-- Transactions made with `begin_write`. -/
inductive PlainStep : State T S E → State T S E → Prop
  | begin {s : State T S E} : s.writer = none → PlainStep s { s with writer := some .plain }
  | commit {s : State T S E} (new : S) : s.writer = some .plain →
    PlainStep s (s.publish [(none, s.store, new)] new)
  | rollback {s : State T S E} : s.writer = some .plain → PlainStep s s.release

structure Initial (s : State T S E) : Prop where
  status : ∀ t, s.status t = .idle
  pending : ∀ t, s.pending t = {}
  queue : s.queue = []
  leader : s.leader = none
  writer : s.writer = none
  history : s.history = []

inductive Reachable (runs : Closures T S E) : State T S E → Prop
  | initial {s : State T S E} : Initial s → Reachable runs s
  | move {s s' : State T S E} : Reachable runs s → Move runs true s s' → Reachable runs s'
  | plain {s s' : State T S E} : Reachable runs s → PlainStep s s' → Reachable runs s'

/-! ## Where a call stands -/

/-- The entries that the leader has drained and not finished. -/
def Phase.batch : Phase T S E → List T
  | .entered | .beginFailed | .begun | .finished => []
  | .running batch .. | .thrown batch .. | .rerun batch .. | .rerunning batch ..
  | .rerunRan batch .. | .finishing batch _ => batch

/-- The queue has not been drained yet. -/
def Phase.early : Phase T S E → Bool
  | .entered | .beginFailed | .begun => true
  | _ => false

def State.batch (s : State T S E) : List T := (s.leader.map (·.2.batch)).getD []

/-- A batch that was drained is not empty, for the leader's own call was in the queue, and it is bounded. -/
def Drained (batch : List T) : Prop := batch ≠ [] ∧ batch.length ≤ maxBatch

/-- The places in a batch that a phase refers to exist. -/
def Phase.Sized : Phase T S E → Prop
  | .entered | .beginFailed | .begun | .finished => True
  | .running batch todo ran _ => Drained batch ∧ batch = ran.map (·.1) ++ todo
  | .thrown batch thrower _ => Drained batch ∧ thrower < batch.length
  | .rerun batch thrower _ i => Drained batch ∧ thrower < batch.length ∧ i ≤ batch.length
  | .rerunning batch thrower _ i t | .rerunRan batch thrower _ i t _ =>
    Drained batch ∧ thrower < batch.length ∧ i ≠ thrower ∧ batch[i]? = some t
  | .finishing batch _ => Drained batch

/-- A call is in the queue or in the batch from the push to `finish`. -/
structure Placed (s : State T S E) : Prop where
  idle : ∀ t, s.status t = .idle → (s.pending t).done = false
  waiting : ∀ t, s.status t = .waiting → (s.pending t).done = false → t ∈ s.queue ++ s.batch
  listed : ∀ t ∈ s.queue ++ s.batch, s.status t = .waiting ∧ (s.pending t).done = false
  nodup : (s.queue ++ s.batch).Nodup
  returned : ∀ t o, s.status t = .returned o → (s.pending t).done = true ∧ o = (s.pending t).outcome
  leader : ∀ l ph, s.leader = some (l, ph) → s.status l = .waiting ∧
    (ph.early = true → (s.pending l).done = false) ∧ ph.Sized

omit [DecidableEq T] in
theorem batch_of_leader {s : State T S E} {l : T} {ph : Phase T S E} (h : s.leader = some (l, ph)) :
    s.batch = ph.batch := by
  rw [State.batch, h]
  rfl

omit [DecidableEq T] in
theorem batch_of_no_leader {s : State T S E} (h : s.leader = none) : s.batch = [] := by
  rw [State.batch, h]
  rfl

section Placed

variable {s s' : State T S E} {l : T} {ph ph' : Phase T S E}

omit [DecidableEq T] in
theorem Placed.keep (h : Placed s) (hstatus : s'.status = s.status) (hqueue : s'.queue = s.queue)
    (hdone : ∀ t, (s'.pending t).done = (s.pending t).done)
    (hpending : ∀ t, (s.pending t).done = true → s'.pending t = s.pending t)
    (hbatch : s'.batch = s.batch)
    (hleader : ∀ l ph, s'.leader = some (l, ph) → s.status l = .waiting ∧
      (ph.early = true → (s.pending l).done = false) ∧ ph.Sized) : Placed s' where
  idle t ht := by rw [hdone]; exact h.idle t (hstatus ▸ ht)
  waiting t ht hd := by rw [hqueue, hbatch]; exact h.waiting t (hstatus ▸ ht) (hdone t ▸ hd)
  listed t ht := by
    rw [hqueue, hbatch] at ht
    rw [hstatus, hdone]
    exact h.listed t ht
  nodup := by rw [hqueue, hbatch]; exact h.nodup
  returned t o ht := by
    have hr := h.returned t o (hstatus ▸ ht)
    rw [hpending t hr.1]
    exact hr
  leader l ph hl := by
    rw [hstatus, hdone]
    exact hleader l ph hl

omit [DecidableEq T] in
theorem Placed.inside (h : Placed s) (hl : s.leader = some (l, ph)) (hl' : s'.leader = some (l, ph'))
    (hstatus : s'.status = s.status) (hqueue : s'.queue = s.queue)
    (hdone : ∀ t, (s'.pending t).done = (s.pending t).done)
    (hpending : ∀ t, (s.pending t).done = true → s'.pending t = s.pending t)
    (hbatch : ph'.batch = ph.batch) (hearly : ph'.early = true → ph.early = true)
    (hsized : ph'.Sized) : Placed s' := by
  obtain ⟨hw, he, -⟩ := h.leader l ph hl
  refine h.keep hstatus hqueue hdone hpending ?_ ?_
  · rw [batch_of_leader hl, batch_of_leader hl', hbatch]
  · intro l₀ ph₀ h₀
    obtain ⟨rfl, rfl⟩ := Prod.mk.inj (Option.some.inj (hl'.symm.trans h₀))
    exact ⟨hw, fun hp => he (hearly hp), hsized⟩

omit [DecidableEq T] in
theorem Placed.setPhase (h : Placed s) (hl : s.leader = some (l, ph)) (hbatch : ph'.batch = ph.batch)
    (hearly : ph'.early = true → ph.early = true) (hsized : ph'.Sized) :
    Placed (s.setPhase l ph') :=
  h.inside hl rfl rfl rfl (fun _ => rfl) (fun _ _ => rfl) hbatch hearly hsized

theorem Placed.setPending (h : Placed s) (hl : s.leader = some (l, ph)) {t : T} {p : Pending E}
    (ht : t ∈ ph.batch) (hs' : s'.leader = some (l, ph')) (hstatus : s'.status = s.status)
    (hqueue : s'.queue = s.queue) (hpending : s'.pending = Function.update s.pending t p)
    (hp : p.done = (s.pending t).done) (hbatch : ph'.batch = ph.batch)
    (hearly : ph'.early = true → ph.early = true) (hsized : ph'.Sized) : Placed s' := by
  refine h.inside hl hs' hstatus hqueue ?_ ?_ hbatch hearly hsized
  · intro u
    rw [hpending]
    by_cases hu : u = t
    · subst hu
      rw [Function.update_self, hp]
    · rw [Function.update_of_ne hu]
  · intro u hu
    rw [hpending, Function.update_of_ne]
    rintro rfl
    have := (h.listed u (by rw [batch_of_leader hl]; simp [ht])).2
    rw [hu] at this
    cases this

omit [DecidableEq T] in
theorem Placed.drain (h : Placed s) (hl : s.leader = some (l, ph)) (hearly : ph.early = true)
    (hs' : s'.leader = some (l, ph')) (hstatus : s'.status = s.status)
    (hpending : s'.pending = s.pending) (hqueue : s'.queue = s.queue.drop maxBatch)
    (hbatch : ph'.batch = s.queue.take maxBatch) (hlate : ph'.early = false)
    (hsized : Drained (s.queue.take maxBatch) → ph'.Sized) : Placed s' := by
  obtain ⟨hw, he, -⟩ := h.leader l ph hl
  have hold : s.batch = [] := by
    rw [batch_of_leader hl]
    cases ph <;> first | rfl | cases hearly
  have hperm : (s'.queue ++ s'.batch).Perm (s.queue ++ s.batch) := by
    rw [hqueue, batch_of_leader hs', hbatch, hold, List.append_nil]
    exact List.perm_append_comm.trans (by rw [List.take_append_drop])
  have hdrained : Drained (s.queue.take maxBatch) := by
    have hmem : l ∈ s.queue ++ s.batch := h.waiting l hw (he hearly)
    rw [hold, List.append_nil] at hmem
    refine ⟨fun hnil => ?_, List.length_take ▸ Nat.min_le_left ..⟩
    rcases List.take_eq_nil_iff.mp hnil with h0 | hnil
    · cases h0
    · rw [hnil] at hmem
      cases hmem
  refine { idle := ?_, waiting := ?_, listed := ?_, nodup := hperm.nodup_iff.mpr h.nodup,
           returned := ?_, leader := ?_ }
  · intro t ht
    rw [hpending]
    exact h.idle t (hstatus ▸ ht)
  · intro t ht hd
    rw [hperm.mem_iff]
    exact h.waiting t (hstatus ▸ ht) (hpending ▸ hd)
  · intro t ht
    rw [hstatus, hpending]
    exact h.listed t (hperm.mem_iff.mp ht)
  · intro t o ht
    rw [hpending]
    exact h.returned t o (hstatus ▸ ht)
  · intro l₀ ph₀ h₀
    obtain ⟨rfl, rfl⟩ := Prod.mk.inj (Option.some.inj (hs'.symm.trans h₀))
    rw [hstatus]
    refine ⟨hw, fun hp => ?_, hsized hdrained⟩
    rw [hlate] at hp
    cases hp

theorem Placed.call (h : Placed s) {t : T} (ht : s.status t = .idle) :
    Placed { s.setStatus t .waiting with queue := s.queue ++ [t] } := by
  have hnot : t ∉ s.queue ++ s.batch := by
    intro hmem
    have := (h.listed t hmem).1
    rw [ht] at this
    cases this
  have hbatch : State.batch { s.setStatus t .waiting with queue := s.queue ++ [t] } = s.batch := rfl
  have hmem : ∀ u, u ∈ (s.queue ++ [t]) ++ s.batch ↔ u = t ∨ u ∈ s.queue ++ s.batch := by
    intro u
    simp only [List.mem_append, List.mem_singleton]
    tauto
  have hother : ∀ u, u ≠ t → (s.setStatus t .waiting).status u = s.status u := fun u hu =>
    Function.update_of_ne hu ..
  have hself : (s.setStatus t .waiting).status t = .waiting := Function.update_self ..
  refine { idle := ?_, waiting := ?_, listed := ?_, nodup := ?_, returned := ?_, leader := ?_ }
  · intro u hu
    by_cases hut : u = t
    · subst hut
      exact h.idle u ht
    · exact h.idle u (hother u hut ▸ hu)
  · intro u hu hd
    rw [hbatch]
    refine (hmem u).mpr ?_
    by_cases hut : u = t
    · exact .inl hut
    · exact .inr (h.waiting u (hother u hut ▸ hu) hd)
  · intro u hu
    rw [hbatch] at hu
    rcases (hmem u).mp hu with rfl | hu
    · exact ⟨hself, h.idle u ht⟩
    · have hut : u ≠ t := fun he => hnot (he ▸ hu)
      exact ⟨(hother u hut).trans (h.listed u hu).1, (h.listed u hu).2⟩
  · rw [hbatch]
    have hperm : ((s.queue ++ [t]) ++ s.batch).Perm (t :: (s.queue ++ s.batch)) := by
      rw [List.append_assoc]
      exact List.perm_middle
    exact hperm.nodup_iff.mpr (List.nodup_cons.mpr ⟨hnot, h.nodup⟩)
  · intro u o hu
    by_cases hut : u = t
    · subst hut
      rw [hself] at hu
      cases hu
    · exact h.returned u o (hother u hut ▸ hu)
  · intro l ph hl
    obtain ⟨hw, hrest⟩ := h.leader l ph hl
    refine ⟨?_, hrest⟩
    by_cases hlt : l = t
    · rw [hlt]
      exact hself
    · exact (hother l hlt).trans hw

theorem Placed.ret (h : Placed s) {t : T} (ht : s.status t = .waiting)
    (hdone : (s.pending t).done = true) (hl : ∀ ph, s.leader ≠ some (t, ph)) :
    Placed (s.setStatus t (.returned (s.pending t).outcome)) := by
  have hother : ∀ u, u ≠ t → (s.setStatus t (.returned (s.pending t).outcome)).status u =
      s.status u := fun u hu => Function.update_of_ne hu ..
  have hself : (s.setStatus t (.returned (s.pending t).outcome)).status t =
      .returned (s.pending t).outcome := Function.update_self ..
  refine { idle := ?_, waiting := ?_, listed := ?_, nodup := h.nodup, returned := ?_, leader := ?_ }
  · intro u hu
    by_cases hut : u = t
    · subst hut
      rw [hself] at hu
      cases hu
    · exact h.idle u (hother u hut ▸ hu)
  · intro u hu hd
    by_cases hut : u = t
    · subst hut
      rw [hself] at hu
      cases hu
    · exact h.waiting u (hother u hut ▸ hu) hd
  · intro u hu
    have hlisted := h.listed u hu
    have hut : u ≠ t := by
      rintro rfl
      rw [hdone] at hlisted
      cases hlisted.2
    exact ⟨(hother u hut).trans hlisted.1, hlisted.2⟩
  · intro u o hu
    by_cases hut : u = t
    · subst hut
      rw [hself] at hu
      cases hu
      exact ⟨hdone, rfl⟩
    · exact h.returned u o (hother u hut ▸ hu)
  · intro l ph hlph
    have hlt : l ≠ t := by
      rintro rfl
      exact hl ph hlph
    obtain ⟨hw, hrest⟩ := h.leader l ph hlph
    exact ⟨(hother l hlt).trans hw, hrest⟩

omit [DecidableEq T] in
theorem finish_done (p : Pending E) (result : Option (Outcome E)) : (p.finish result).done = true := by
  unfold Pending.finish
  split <;> rfl

theorem Placed.finish (h : Placed s) {batch : List T} {result : Option (Outcome E)}
    (hl : s.leader = some (l, .finishing batch result)) :
    Placed ((s.finish batch result).setPhase l .finished) := by
  have hbatch : s.batch = batch := batch_of_leader hl
  have hnodup := h.nodup
  rw [hbatch] at hnodup
  have hin : ∀ t, t ∈ batch → ((s.finish batch result).pending t).done = true := by
    intro t ht
    rw [State.finish]
    dsimp only
    rw [if_pos ht]
    exact finish_done _ _
  have hout : ∀ t, t ∉ batch → (s.finish batch result).pending t = s.pending t :=
    fun t ht => if_neg ht
  have hnew : State.batch ((s.finish batch result).setPhase l .finished) = [] := rfl
  refine { idle := ?_, waiting := ?_, listed := ?_, nodup := ?_, returned := ?_, leader := ?_ }
  · intro t ht
    have hnot : t ∉ batch := by
      intro hmem
      have := (h.listed t (by rw [hbatch]; simp [hmem])).1
      rw [show s.status t = .idle from ht] at this
      cases this
    exact (congrArg Pending.done (hout t hnot)).trans (h.idle t ht)
  · intro t ht hd
    rw [hnew, List.append_nil]
    have hnot : t ∉ batch := by
      intro hmem
      rw [show ((s.finish batch result).setPhase l .finished).pending t =
        (s.finish batch result).pending t from rfl, hin t hmem] at hd
      cases hd
    have hd' : (s.pending t).done = false := hout t hnot ▸ hd
    have hmem := h.waiting t ht hd'
    rw [hbatch] at hmem
    rcases List.mem_append.mp hmem with hq | hb
    · exact hq
    · exact absurd hb hnot
  · intro t ht
    rw [hnew, List.append_nil] at ht
    have hnot : t ∉ batch := fun hb => (List.nodup_append.mp hnodup).2.2 t ht t hb rfl
    have hlisted := h.listed t (by rw [hbatch]; exact List.mem_append_left _ ht)
    exact ⟨hlisted.1, (congrArg Pending.done (hout t hnot)).trans hlisted.2⟩
  · rw [hnew, List.append_nil]
    exact (List.nodup_append.mp hnodup).1
  · intro t o ht
    have hr := h.returned t o ht
    have hnot : t ∉ batch := by
      intro hmem
      have := (h.listed t (by rw [hbatch]; simp [hmem])).2
      rw [hr.1] at this
      cases this
    have heq : ((s.finish batch result).setPhase l .finished).pending t = s.pending t := hout t hnot
    rw [heq]
    exact hr
  · intro l₀ ph₀ h₀
    obtain ⟨rfl, rfl⟩ := Prod.mk.inj (Option.some.inj h₀)
    exact ⟨(h.leader l _ hl).1, fun he => (by cases he), trivial⟩

theorem Move.placed {runs : Closures T S E} {faulty : Bool} (hmove : Move runs faulty s s')
    (h : Placed s) : Placed s' := by
  cases hmove with
  | call ht => exact h.call ht
  | @lead t ht hd hl =>
    refine h.keep rfl rfl (fun _ => rfl) (fun _ _ => rfl) ?_ ?_
    · rw [batch_of_no_leader hl]
      rfl
    · intro l₀ ph₀ h₀
      obtain ⟨rfl, rfl⟩ := Prod.mk.inj (Option.some.inj h₀)
      exact ⟨ht, fun _ => hd, trivial⟩
  | ret ht hd hl => exact h.ret ht hd hl
  | beginWrite hl _ =>
    exact h.inside hl rfl rfl rfl (fun _ => rfl) (fun _ _ => rfl) rfl (fun _ => rfl) trivial
  | beginFails _ hl => exact h.setPhase hl rfl (fun _ => rfl) trivial
  | drainFailed hl => exact h.drain hl rfl rfl rfl rfl rfl rfl rfl id
  | drain hl => exact h.drain hl rfl rfl rfl rfl rfl rfl rfl fun hd => ⟨hd, by simp⟩
  | run hl _ =>
    obtain ⟨hd, hbatch⟩ := (h.leader _ _ hl).2.2
    exact h.setPhase hl rfl (fun he => by cases he) ⟨hd, by rw [hbatch]; simp⟩
  | throws hl _ =>
    obtain ⟨hd, hbatch⟩ := (h.leader _ _ hl).2.2
    exact h.setPhase hl rfl (fun he => by cases he) ⟨hd, by rw [hbatch]; simp⟩
  | commit hl =>
    obtain ⟨hd, -⟩ := (h.leader _ _ hl).2.2
    exact h.inside hl rfl rfl rfl (fun _ => rfl) (fun _ _ => rfl) rfl (fun he => by cases he) hd
  | commitFails published _ hl =>
    obtain ⟨hd, -⟩ := (h.leader _ _ hl).2.2
    cases published <;>
      exact h.inside hl rfl rfl rfl (fun _ => rfl) (fun _ _ => rfl) rfl (fun he => by cases he) hd
  | rollback hl =>
    obtain ⟨hd, hlt⟩ := (h.leader _ _ hl).2.2
    split
    · exact h.inside hl rfl rfl rfl (fun _ => rfl) (fun _ _ => rfl) rfl (fun he => by cases he) hd
    · exact h.inside hl rfl rfl rfl (fun _ => rfl) (fun _ _ => rfl) rfl (fun he => by cases he)
        ⟨hd, hlt, Nat.zero_le _⟩
  | rerunThrower hl ht =>
    obtain ⟨hd, hlt, -⟩ := (h.leader _ _ hl).2.2
    exact h.setPending hl (List.mem_of_getElem? ht) rfl rfl rfl rfl rfl rfl (fun he => by cases he)
      ⟨hd, hlt, hlt⟩
  | rerunBegin hl ht hne _ =>
    obtain ⟨hd, hlt, -⟩ := (h.leader _ _ hl).2.2
    exact h.inside hl rfl rfl rfl (fun _ => rfl) (fun _ _ => rfl) rfl (fun he => by cases he)
      ⟨hd, hlt, hne, ht⟩
  | rerunBeginFails _ hl ht _ =>
    obtain ⟨hd, hlt, -⟩ := (h.leader _ _ hl).2.2
    exact h.setPending hl (List.mem_of_getElem? ht) rfl rfl rfl rfl rfl rfl (fun he => by cases he)
      ⟨hd, hlt, List.getElem?_eq_some_iff.mp ht |>.1⟩
  | rerunRun hl _ =>
    exact h.setPhase hl rfl (fun he => by cases he) (h.leader _ _ hl).2.2
  | rerunThrows hl _ =>
    obtain ⟨hd, hlt, -, ht⟩ := (h.leader _ _ hl).2.2
    exact h.setPending hl (List.mem_of_getElem? ht) rfl rfl rfl rfl rfl rfl (fun he => by cases he)
      ⟨hd, hlt, List.getElem?_eq_some_iff.mp ht |>.1⟩
  | rerunCommit hl =>
    obtain ⟨hd, hlt, -, ht⟩ := (h.leader _ _ hl).2.2
    exact h.setPending hl (List.mem_of_getElem? ht) rfl rfl rfl rfl rfl rfl (fun he => by cases he)
      ⟨hd, hlt, List.getElem?_eq_some_iff.mp ht |>.1⟩
  | rerunCommitFails published _ hl =>
    obtain ⟨hd, hlt, -, ht⟩ := (h.leader _ _ hl).2.2
    cases published <;>
      exact h.setPending hl (List.mem_of_getElem? ht) rfl rfl rfl rfl rfl rfl (fun he => by cases he)
        ⟨hd, hlt, List.getElem?_eq_some_iff.mp ht |>.1⟩
  | rerunEnd hl =>
    obtain ⟨hd, -⟩ := (h.leader _ _ hl).2.2
    exact h.setPhase hl rfl (fun he => by cases he) hd
  | finish hl => exact h.finish hl
  | stepDown hl =>
    refine h.keep rfl rfl (fun _ => rfl) (fun _ _ => rfl) ?_ (fun _ _ h₀ => by cases h₀)
    rw [batch_of_leader hl]
    rfl

omit [DecidableEq T] in
theorem PlainStep.placed (hstep : PlainStep s s') (h : Placed s) : Placed s' := by
  cases hstep <;> exact h.keep rfl rfl (fun _ => rfl) (fun _ _ => rfl) rfl h.leader

omit [DecidableEq T] in
theorem Initial.placed (h : Initial s) : Placed s := by
  have hbatch : s.queue ++ s.batch = [] := by rw [h.queue, batch_of_no_leader h.leader]; rfl
  refine { idle := ?_, waiting := ?_, listed := ?_, nodup := ?_, returned := ?_, leader := ?_ }
  · intro t _
    rw [h.pending]
  · intro t ht
    rw [h.status] at ht
    cases ht
  · intro t ht
    rw [hbatch] at ht
    cases ht
  · rw [hbatch]
    exact List.nodup_nil
  · intro t o ht
    rw [h.status] at ht
    cases ht
  · intro l ph hl
    rw [h.leader] at hl
    cases hl

theorem Reachable.placed {runs : Closures T S E} (h : Reachable runs s) : Placed s := by
  induction h with
  | initial hinit => exact hinit.placed
  | move _ hmove ih => exact hmove.placed ih
  | plain _ hstep ih => exact hstep.placed ih

end Placed

end Llbt.GroupCommit
