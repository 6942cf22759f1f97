import Mathlib

/-!
# Nested closures

`Store::write` runs closures under a `ClosureGuard`, which notes their store in one thread-local pointer and puts the
old value back when it goes out of scope.  A call of `write` or `begin_write` is rejected if the pointer names its
store.

* `rejected_iff` — that is right exactly if a closure of the store is not running at all, or is the innermost one;
* `outer_closure_is_missed` — a closure of one store inside of one of another hides the latter.
-/

set_option autoImplicit false

namespace Llbt.Closures

variable {S : Type} [DecidableEq S]

/-- `t_closure_store`, and the guards that are alive, innermost first: the store of each, and what it saved. -/
structure Thread (S : Type) where
  tClosureStore : Option S
  guards : List (S × Option S)

def Thread.start : Thread S := ⟨none, []⟩

/-- `ClosureGuard(s)` -/
def Thread.guard (t : Thread S) (s : S) : Thread S := ⟨some s, (s, t.tClosureStore) :: t.guards⟩

/-- `~ClosureGuard()` -/
def Thread.unguard (t : Thread S) : Thread S :=
  match t.guards with
  | [] => t
  | (_, prev) :: rest => ⟨prev, rest⟩

/-- The stores whose closures run on the thread, innermost first. -/
def Thread.running (t : Thread S) : List S := t.guards.map Prod.fst

inductive Call where
  | write
  | beginWrite

def Call.message : Call → String
  | .write => "write() inside a Store::write() closure would deadlock — use the Tx the closure was given"
  | .beginWrite => "begin_write() inside a Store::write() closure would deadlock — use the Tx the closure was given"

inductive Outcome where
  | logicError (message : String)
  | blocks
  | proceeds
  deriving DecidableEq

/-- A closure runs in a write transaction of its store that this thread has open: a call on the same store that gets
past the check waits for that transaction to end. -/
def Thread.call (t : Thread S) (c : Call) (s : S) : Outcome :=
  if t.tClosureStore = some s then .logicError c.message
  else if s ∈ t.running then .blocks
  else .proceeds

/-- A call of `write` whose closure starts on this thread, and the end of the innermost closure. -/
inductive Event (S : Type) where
  | write (s : S)
  | finish

def Event.run (t : Thread S) : Event S → Option (Thread S)
  | .write s => if t.call .write s = .proceeds then some (t.guard s) else none
  | .finish => if t.guards.isEmpty then none else some t.unguard

def runAll : List (Event S) → Thread S → Option (Thread S)
  | [], t => some t
  | e :: es, t => (e.run t).bind (runAll es)

/-! ## What the pointer says -/

/-- Every guard saved the store of the next one. -/
def Saved : List (S × Option S) → Prop
  | [] => True
  | (_, prev) :: rest => prev = (rest.map Prod.fst).head? ∧ Saved rest

/-- The pointer names the innermost closure. -/
def Thread.Nested (t : Thread S) : Prop := t.tClosureStore = t.running.head? ∧ Saved t.guards

theorem Thread.Nested.run {t t' : Thread S} (h : t.Nested) {e : Event S} (hrun : e.run t = some t') : t'.Nested := by
  obtain ⟨hpointer, hsaved⟩ := h
  cases e with
  | write s =>
    simp only [Event.run, Option.ite_none_right_eq_some, Option.some.injEq] at hrun
    obtain ⟨-, rfl⟩ := hrun
    exact ⟨rfl, hpointer, hsaved⟩
  | finish =>
    simp only [Event.run, Option.ite_none_left_eq_some, Option.some.injEq] at hrun
    obtain ⟨-, rfl⟩ := hrun
    unfold Thread.unguard
    split
    · exact ⟨hpointer, hsaved⟩
    · rename_i hguards
      rw [hguards] at hsaved
      exact hsaved

theorem Thread.Nested.runAll : ∀ {es : List (Event S)} {t t' : Thread S}, t.Nested → runAll es t = some t' → t'.Nested
  | [], _, _, h, hrun => by
    cases hrun
    exact h
  | e :: es, t, t', h, hrun => by
    obtain ⟨t₁, hfirst, hrest⟩ := Option.bind_eq_some_iff.mp hrun
    exact (h.run hfirst).runAll hrest

/-- **Closures on one thread.**  After any calls, whether a call is rejected tells whether a closure of its store is
running if and only if no closure of it is, or the innermost one. -/
theorem rejected_iff {es : List (Event S)} {t : Thread S} (h : runAll es .start = some t) (s : S) :
    (∀ c, (s ∈ t.running → t.call c s = .logicError c.message) ∧ (s ∉ t.running → t.call c s = .proceeds)) ↔
      (s ∈ t.running → t.running.head? = some s) := by
  have hstart : (Thread.start : Thread S).Nested := ⟨rfl, trivial⟩
  have hpointer : t.tClosureStore = t.running.head? := (hstart.runAll h).1
  have hcall : ∀ c, t.call c s = if t.running.head? = some s then .logicError c.message
      else if s ∈ t.running then .blocks else .proceeds := fun c => by rw [Thread.call, hpointer]
  constructor
  · intro hall hrunning
    have hreject := (hall .write).1 hrunning
    rw [hcall] at hreject
    by_contra hne
    rw [if_neg hne, if_pos hrunning] at hreject
    cases hreject
  · intro hinner c
    rw [hcall]
    refine ⟨fun hrunning => if_pos (hinner hrunning), fun hnot => ?_⟩
    rw [if_neg fun hhead => hnot (List.mem_of_head? hhead), if_neg hnot]

/-- A closure within a closure of another store: the inner store is rejected, a third one is not. -/
theorem rejected_iff_nested : ∃ t : Thread Nat, runAll [.write 0, .write 1] .start = some t ∧ t.running = [1, 0] ∧
    ∀ c, t.call c 1 = .logicError c.message ∧ t.call c 2 = .proceeds := by
  refine ⟨_, rfl, rfl, fun c => ⟨?_, ?_⟩⟩
  · exact ((@rejected_iff Nat _ [.write 0, .write 1] _ rfl 1).mpr (fun _ => rfl) c).1 (by decide)
  · exact ((@rejected_iff Nat _ [.write 0, .write 1] _ rfl 2).mpr (fun h => absurd h (by decide)) c).2 (by decide)

/-- A closure of the store 0 writes to the store 1, whose closure calls `write` on the store 0. -/
theorem outer_closure_is_missed : ∃ t : Thread Nat, runAll [.write 0, .write 1] .start = some t ∧ 0 ∈ t.running ∧
    t.call .write 0 = .blocks ∧ t.call .beginWrite 0 = .blocks :=
  ⟨_, rfl, by decide, by decide, by decide⟩

end Llbt.Closures
